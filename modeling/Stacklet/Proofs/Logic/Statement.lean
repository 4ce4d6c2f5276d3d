import Mathlib.Data.List.Induction
import Stacklet.Proofs.Logic.Expression
/-!
# Assertions at the places of statements

* `Outline.Flows`: the assertions around a statement and around its parts fit together.
* `Outline.Sound`: so it is at all places of a part.
* `TypedPart.verified`: then the code of the part leads from the assertion ahead of it to that
  behind it. What is expected at labels is found in the assertions.
-/

namespace Stacklet

open Emit List
open Stacklet.Tree hiding lower

variable {X : Type}

/-- A test leads from `A` to `B` where it goes on, and to `C` where it jumps. -/
def Tracking.Tests (T : Tracking X) (A B C : X → Prop) : Prop :=
  ∀ i l x x', A x → T.acts i (.jumpIfZero l) x x' → B x' ∧ C x'

section Leads

variable {T : Tracking X} {Λ : String → X → Prop} {i : Nat} {A B C : X → Prop} {l l' : String}

theorem Tracking.Tests.leads (h : T.Tests A B C) (hl : Λ l = C) : T.Leads Λ i A [.jumpIfZero l] B :=
  .jumpIfZero fun x x' hx hacts => ⟨(h i l x x' hx hacts).1, hl ▸ (h i l x x' hx hacts).2⟩

theorem Tracking.Leads.label_of_eq (h : A ≤ B) (hl : Λ l = B) : T.Leads Λ i A [.label l] B :=
  hl ▸ .label (hl ▸ h)

theorem Tracking.Leads.jump_label (h : A ≤ C) (hl : Λ l = C) (hl' : Λ l' = B) :
    T.Leads Λ i A [.jump l, .label l'] B :=
  .cons (.jump (hl ▸ h)) (.label_of_eq le_rfl hl')

end Leads

namespace Outline

section Definitions

variable (a : Outline X) (T : Tracking X) (here : List Nat) (t : Tree)

/-- The assertion ahead of the child with number `j`, or behind the node if that is past the last
one. -/
def next (j : Nat) : X → Prop :=
  if j < t.children.length then a.ahead (here ++ [j]) else a.behind here

/-- The assertions in an alternative of a conditional fit together: a test that fails leads to `B`,
and behind the block there is `E`. -/
def Alternative (B E : X → Prop) : Prop :=
  match t.kind with
  | .elseIf =>
    a.ahead here ≤ a.ahead (here ++ [0]) ∧
      T.Tests (a.behind (here ++ [0])) (a.ahead (here ++ [1])) B ∧
      a.behind (here ++ [1]) ≤ E
  | _ => a.behind here ≤ B

/-- The assertions at the ways out of a loop are those behind it and ahead of its child with number
`j`. -/
def Exits (j : Nat) : Prop :=
  ∀ p part u, partAt? p .statement t = some (part, u) →
    (u.kind = .breakStmt → a.ahead (here ++ p) ≤ a.behind here) ∧
    (u.kind = .continueStmt → a.ahead (here ++ p) ≤ a.ahead (here ++ [j]))

/-- The assertions around a statement and around its parts fit together. -/
def Flows : Prop :=
  match t.kind, t.children with
  | .block, _ =>
    a.ahead here ≤ a.next here t 0 ∧ ∀ j, j < t.children.length →
      a.behind (here ++ [j]) ≤ a.next here t (j + 1)
  | .declaration, _ =>
    a.ahead here ≤ a.next here t 1 ∧ ∀ j, j + 1 < t.children.length →
      a.behind (here ++ [j + 1]) ≤ a.next here t (j + 2)
  | .exprStmt, _ => a.ahead here ≤ a.ahead (here ++ [0]) ∧ a.behind (here ++ [0]) ≤ a.behind here
  | .returnStmt, _ =>
    a.ahead here ≤ a.ahead (here ++ [0]) ∧ ∀ x, a.behind (here ++ [0]) x → T.needs .ret x
  | .conditional, _ =>
    a.ahead here ≤ a.ahead (here ++ [0]) ∧ T.Tests (a.behind (here ++ [0])) (a.ahead (here ++ [1]))
      (a.next here t 2) ∧
    a.behind (here ++ [1]) ≤ a.behind here ∧
    ∀ j c, t.children[j + 2]? = some c → a.Alternative T (here ++ [j + 2]) c (a.next here t (j + 3))
      (a.behind here)
  | .whileLoop, _ =>
    a.ahead here ≤ a.ahead (here ++ [0]) ∧ T.Tests (a.behind (here ++ [0])) (a.ahead (here ++ [1]))
      (a.behind here) ∧
    a.behind (here ++ [1]) ≤ a.ahead (here ++ [0]) ∧ a.Exits here t 0
  | .doWhile, _ =>
    a.ahead here ≤ a.ahead (here ++ [0]) ∧ a.behind (here ++ [0]) ≤ a.ahead (here ++ [1]) ∧
    T.Tests (a.behind (here ++ [1])) (a.ahead (here ++ [0])) (a.behind here) ∧ a.Exits here t 1
  | .forLoop, [_, c, step, _] =>
    a.ahead here ≤ a.ahead (here ++ [0]) ∧ a.behind (here ++ [0]) ≤ a.ahead (here ++ [1]) ∧
    (if c.kind = .empty then a.ahead (here ++ [1]) ≤ a.ahead (here ++ [3])
      else T.Tests (a.behind (here ++ [1])) (a.ahead (here ++ [3])) (a.behind here)) ∧
    a.behind (here ++ [3]) ≤ a.ahead (here ++ [2]) ∧
    (if step.kind = .empty then a.ahead (here ++ [2]) else a.behind (here ++ [2])) ≤
      a.ahead (here ++ [1]) ∧
    a.Exits here t 2
  | .breakStmt, _ | .continueStmt, _ | .empty, _ => a.ahead here ≤ a.behind here
  | _, _ => True

variable (Λ : String → X → Prop) (part : Tree.Part) (r : Role) (s : Emit.State) (i : Nat)
  (B E : X → Prop)

/-- The assertions at the ways out of the loop around a part are what is expected at its labels. -/
def Fits (loops : List LoopLabels) : Prop :=
  ∀ labels outer, loops = labels :: outer → ∀ p part' u, partAt? p part t = some (part', u) →
    (u.kind = .breakStmt → a.ahead (here ++ p) ≤ Λ labels.breakTo) ∧
    (u.kind = .continueStmt → a.ahead (here ++ p) ≤ Λ labels.continueTo)

/-- For some assertions at the labels of the code of a part, it leads to `B`. If the part is an
alternative of a conditional, `E` is expected behind that. -/
def Verified : Prop :=
  ∃ ls : List (String × (X → Prop)), ls.map Prod.fst = labelsIn (code (lower r t) s) ∧
    ∀ Λ, (∀ e ∈ ls, Λ e.1 = e.2) → a.Fits here t Λ part s.loops →
      (∀ done, r = .branch done → E ≤ Λ done) →
      a.Runs T here t Λ part r s i B

/-- The child with number `j` is verified behind the code ahead of it. -/
def VerifiedChild (j : Nat) (c : Tree) : Prop :=
  a.Verified T (here ++ [j]) c part (Emit.ahead r t j s).1 (after (Emit.ahead r t j) s)
    (i + (code (Emit.ahead r t j) s).length) B E

/-- The assertions at all places of a part fit together. -/
structure Sound : Prop where
  flows : ∀ p part' u, partAt? p part t = some (part', u) → a.Flows T (here ++ p) u
  computes : ∀ p part' u, partAt? p part t = some (part', u) → part' = .declarator ∨
    part' = .expression →
    a.Computes T (here ++ p) u (reach p r t s).1 (after (reach p r t) s)
      (i + (code (reach p r t) s).length)
      (a.behind (here ++ p))

end Definitions

variable {a : Outline X} {T : Tracking X} {here : List Nat} {t c : Tree} {Λ : String → X → Prop}
  {part part' : Tree.Part} {r : Role} {s : Emit.State} {i j : Nat} {B B' C E : X → Prop}

theorem Sound.child (h : a.Sound T here t part r s i) (hc : t.children[j]? = some c)
    (hpart : part? t.kind j c = some part') :
    a.Sound T (here ++ [j]) c part' (Emit.ahead r t j s).1 (after (Emit.ahead r t j) s)
      (i + (code (Emit.ahead r t j) s).length) where
  flows p part'' u hp := by
    rw [append_assoc, singleton_append]
    exact h.flows (j :: p) part'' u ((partAt?_child hc hpart p).trans hp)
  computes p part'' u hp hplain := by
    have := h.computes (j :: p) part'' u ((partAt?_child hc hpart p).trans hp) hplain
    rw [reach_cons hc, result_bind, after_bind, code_bind, length_append, ← Nat.add_assoc] at this
    rw [append_assoc, singleton_append]
    exact this

theorem Fits.child {loops : List LoopLabels} (h : a.Fits here t Λ part loops)
    (hc : t.children[j]? = some c) (hpart : part? t.kind j c = some part') :
    a.Fits (here ++ [j]) c Λ part' loops := by
  intro labels outer hloops p part'' u hp
  rw [append_assoc, singleton_append]
  exact h labels outer hloops (j :: p) part'' u ((partAt?_child hc hpart p).trans hp)

theorem Exits.fits {labels : LoopLabels} {outer : List LoopLabels} {n : Nat} (h : a.Exits here t n)
    (hbreak : Λ labels.breakTo = a.behind here)
    (hcontinue : Λ labels.continueTo = a.ahead (here ++ [n])) :
    a.Fits here t Λ .statement (labels :: outer) := by
  intro _ _ hloops p part u hp
  cases hloops
  obtain ⟨hb, hc⟩ := h p part u hp
  exact ⟨fun hk => hbreak ▸ hb hk, fun hk => hcontinue ▸ hc hk⟩

/-! ## Rows -/

theorem next_of_getElem? (h : t.children[j]? = some c) : a.next here t j = a.ahead (here ++ [j]) :=
  if_pos (List.getElem?_eq_some_iff.mp h).1

theorem next_length : a.next here t t.children.length = a.behind here := if_neg (Nat.lt_irrefl _)

/-- Children in a row, from the number `k` on: with assertions at the labels of all of them, the
code ahead of each one leads to the assertion ahead of it. -/
theorem exists_row {f : List Tree → Emit Unit} {A : X → Prop} {k : Nat} (ts : List Tree)
    (hnil : code (f []) s = [])
    (hsnoc : ∀ ts c, code (f (ts ++ [c])) s = code (f ts) s ++ code (lower r c) (after (f ts) s))
    (hA : A ≤ a.next here t k)
    (hts : ∀ j c, ts[j]? = some c → a.Verified T (here ++ [j + k]) c part r
      (after (f (ts.take j)) s) (i + (code (f (ts.take j)) s).length) (a.next here t (j + 1 + k)) E)
    (hnext : ∀ j c, ts[j]? = some c → a.next here t (j + k) = a.ahead (here ++ [j + k])) :
    ∃ ls : List (String × (X → Prop)), ls.map Prod.fst = labelsIn (code (f ts) s) ∧
      ∀ Λ, (∀ e ∈ ls, Λ e.1 = e.2) →
        (∀ j c, ts[j]? = some c →
          a.Fits (here ++ [j + k]) c Λ part (after (f (ts.take j)) s).loops) →
        (∀ done, r = .branch done → E ≤ Λ done) →
        T.Leads Λ i A (code (f ts) s) (a.next here t (ts.length + k)) ∧
        ∀ j c, ts[j]? = some c → T.Leads Λ i A (code (f (ts.take j)) s)
          (a.ahead (here ++ [j + k])) ∧
          a.Runs T (here ++ [j + k]) c Λ part r (after (f (ts.take j)) s)
            (i + (code (f (ts.take j)) s).length) (a.next here t (j + 1 + k)) := by
  induction ts using reverseRecOn with
  | nil =>
    refine ⟨[], by rw [hnil]; rfl, fun Λ _ _ _ => ⟨?_, nofun⟩⟩
    rw [hnil, length_nil, Nat.zero_add]
    exact .nil hA
  | append_singleton ts c ih =>
    have hold {j c'} (h : ts[j]? = some c') : (ts ++ [c])[j]? = some c' ∧
        (ts ++ [c]).take j = ts.take j := by
      have hj := (List.getElem?_eq_some_iff.mp h).1
      exact ⟨by rw [getElem?_append_left hj, h], take_append_of_le_length (Nat.le_of_lt hj)⟩
    have hlast : (ts ++ [c])[ts.length]? = some c := by simp
    have htake : (ts ++ [c]).take ts.length = ts := take_left ..
    obtain ⟨ls, hls, hbefore⟩ := ih (fun j c' hj => (hold hj).2 ▸ hts j c' (hold hj).1)
      (fun j c' hj => hnext j c' (hold hj).1)
    have hpiece := hts ts.length c hlast
    rw [htake] at hpiece
    obtain ⟨ls', hls', hpiece⟩ := hpiece
    refine ⟨ls ++ ls', ?_, fun Λ hΛ hfits hdone => ?_⟩
    · rw [map_append, hls, hls', hsnoc, labelsIn_append]
    · obtain ⟨hrow, hplaces⟩ := hbefore Λ (fun e he => hΛ e (mem_append_left _ he))
        (fun j c' hj => (hold hj).2 ▸ hfits j c' (hold hj).1) hdone
      have hfitsLast := hfits ts.length c hlast
      rw [htake] at hfitsLast
      have hc := hpiece Λ (fun e he => hΛ e (mem_append_right _ he)) hfitsLast hdone
      rw [hnext ts.length c hlast] at hrow
      refine ⟨?_, fun j c' hj => ?_⟩
      · rw [hsnoc, length_append, length_singleton]
        exact hrow.append hc.whole
      · rcases Nat.lt_trichotomy j ts.length with hlt | rfl | hgt
        · rw [getElem?_append_left hlt] at hj
          rw [(hold hj).2]
          exact hplaces j c' hj
        · obtain rfl : c = c' := Option.some.inj (hlast.symm.trans hj)
          rw [htake]
          exact ⟨hrow, hc⟩
        · have := (List.getElem?_eq_some_iff.mp hj).1
          rw [length_append, length_singleton] at this
          omega

/-! ## Constructs -/

theorem verified_plain (hlabels : labelsIn (code (lower r t) s) = [])
    (h : ∀ Λ, a.Runs T here t Λ part r s i B) :
    a.Verified T here t part r s i B E :=
  ⟨[], hlabels.symm, fun Λ _ _ _ => h Λ⟩

theorem Verified.mono (h : a.Verified T here t part r s i B E) (hB : B ≤ B') :
    a.Verified T here t part r s i B' E := by
  obtain ⟨ls, hls, h⟩ := h
  exact ⟨ls, hls, fun Λ hΛ hfits hdone => (h Λ hΛ hfits hdone).mono hB⟩

theorem VerifiedChild.of_ahead {r' : Role} {before : List Instr} {s' : Emit.State}
    (h : a.VerifiedChild T here t part r s i B E j c) (hahead : Ahead r t j s r' before s') :
    a.Verified T (here ++ [j]) c part r' s' (i + before.length) B E := by
  obtain ⟨rfl, rfl, rfl⟩ := hahead
  exact h

section Constructs

variable {loc : Loc} {ts : List Tree} {cond body e : Tree}

theorem verified_row {f : List Tree → Emit Unit} [∀ ts, Steady (f ts)] {r' : Role}
    {u : Emit.State} {k : Nat} (hlength : t.children.length = ts.length + k)
    (hcode : code (lower r t) s = code (f ts) u) (hloops : u.loops = s.loops)
    (hnil : code (f []) u = [])
    (hsnoc : ∀ ts c, code (f (ts ++ [c])) u = code (f ts) u ++ code (lower r' c) (after (f ts) u))
    (hr : ∀ done, r' ≠ .branch done) (hstart : a.ahead here ≤ a.next here t k)
    (hnext : ∀ j, j < ts.length → a.behind (here ++ [j + k]) ≤ a.next here t (j + 1 + k))
    (hparts : ∀ j c part₁, t.children[j]? = some c → part? t.kind j c = some part₁ →
      ∃ n, j = n + k ∧ ts[n]? = some c ∧ part₁ = part')
    (hahead : ∀ j, Ahead r t (j + k) s r' (code (f (ts.take j)) u) (after (f (ts.take j)) u))
    (hts : ∀ j c, ts[j]? = some c → t.children[j + k]? = some c ∧
      part? t.kind (j + k) c = some part' ∧
      a.VerifiedChild T here t part' r s i (a.behind (here ++ [j + k])) E (j + k) c) :
    a.Verified T here t part r s i (a.behind here) E := by
  obtain ⟨ls, hls, hrow⟩ := exists_row ts hnil hsnoc hstart
    (fun j c hc => ((hts j c hc).2.2.of_ahead (hahead j)).mono
      (hnext j (List.getElem?_eq_some_iff.mp hc).1))
    (fun j c hc => next_of_getElem? (hts j c hc).1)
  refine ⟨ls, by rw [hls, hcode], fun Λ hΛ hfits _ => ?_⟩
  have hloops (j : Nat) : (after (f (ts.take j)) u).loops = s.loops :=
    (Steady.extend (x := f (ts.take j)) u).loops_eq.trans hloops
  obtain ⟨hwhole, hplaces⟩ :=
    hrow Λ hΛ (fun j c hc => hloops j ▸ hfits.child (hts j c hc).1 (hts j c hc).2.1)
    fun done h => absurd h (hr done)
  refine .of_steps ?_ fun j c part₁ hc hpart => ?_
  · rw [hcode, ← next_length (t := t), hlength]
    exact hwhole
  · obtain ⟨n, rfl, hn, rfl⟩ := hparts j c part₁ hc hpart
    obtain ⟨hstep, hruns⟩ := hplaces n c hn
    exact ⟨_, _, _, _, hahead n, hstep, hruns⟩

theorem verified_block (ht : t = ⟨.block, "Block", false, loc, ts⟩) (hflows : a.Flows T here t)
    (hts : ∀ j c, ts[j]? = some c → a.VerifiedChild T here t .statement .statement s i
      (a.behind (here ++ [j])) E j c) :
    a.Verified T here t .statement .statement s i (a.behind here) E := by
  subst ht
  refine verified_row (f := statements) (u := s.enter) (k := 0) rfl
    (by rw [lower_statement, statement_block, code_inScope])
    rfl (by simp [statements]) (fun ts c => ?_) (fun _ => Role.noConfusion) hflows.1 hflows.2
    (fun j c _ hc hpart => ⟨j, rfl, hc, (Option.some.inj hpart).symm⟩) (ahead_block loc s ts)
      fun j c hc => ⟨hc, rfl, hts j c hc⟩
  rw [statements_append, code_bind, statements_cons, statements_nil]
  simp

theorem verified_declaration {ty : Tree}
    (ht : t = ⟨.declaration, "VarDeclList", false, loc, ty :: ts⟩) (hflows : a.Flows T here t)
    (hts : ∀ j c, ts[j]? = some c →
      a.VerifiedChild T here t .declarator .statement s i (a.behind (here ++ [j + 1])) E
      (j + 1) c) :
    a.Verified T here t .statement .statement s i (a.behind here) E := by
  subst ht
  refine verified_row (f := fun ts => ts.forM (declarator (.ofTree ty))) (k := 1) rfl
    (by rw [lower_statement, statement_declaration]) rfl rfl (fun ts c => ?_)
      (fun _ => Role.noConfusion) hflows.1
    (fun j hj => hflows.2 j (Nat.succ_lt_succ hj)) (fun j c _ hc hpart => ?_)
      (ahead_declaration loc s ty ts)
    fun j c hc => ⟨hc, rfl, hts j c hc⟩
  · rw [code_forM_append, code_forM_cons]
    simp [lower]
  · rcases j with _ | j <;> cases hpart
    exact ⟨j, rfl, hc, rfl⟩

theorem verified_exprStmt (ht : t = ⟨.exprStmt, "ExprStmt", false, loc, [e]⟩)
    (hflows : a.Flows T here t) (he : a.RunsChild T here t .expression .statement s i 0 e) :
    a.Verified T here t .statement .statement s i (a.behind here) E := by
  subst ht
  have hcode : code (lower .statement ⟨.exprStmt, "ExprStmt", false, loc, [e]⟩) s =
      code (expression e .effect) s ++ [] := by
    rw [lower_statement, statement_exprStmt, append_nil]
  refine verified_plain ?_ (runs_single rfl rfl (ahead_exprStmt loc s e) hcode hflows.1
    (fun _ _ => .nil hflows.2) he)
  rw [hcode, append_nil, labelsIn_of_straight (Plain.straight s)]

theorem verified_returnStmt (ht : t = ⟨.returnStmt, "Return", false, loc, [e]⟩)
    (hflows : a.Flows T here t) (he : a.RunsChild T here t .expression .statement s i 0 e) :
    a.Verified T here t .statement .statement s i B E := by
  subst ht
  have hcode := code_returnStmt loc s e
  refine verified_plain ?_ (runs_single rfl rfl (ahead_returnStmt loc s e) hcode hflows.1
    (fun _ _ => .ret hflows.2) he)
  rw [lower_statement, hcode, labelsIn_append, labelsIn_of_straight (Plain.straight s)]
  rfl

theorem verified_empty (hk : t.children = []) (hcode : code (statement t) s = [])
    (h : a.ahead here ≤ a.behind here) :
    a.Verified T here t .statement .statement s i (a.behind here) E := by
  refine verified_plain (by rw [lower_statement, hcode]; rfl) fun Λ =>
    .of_steps ?_ fun j c _ hc _ => ?_
  · rw [lower_statement, hcode]
    exact .nil h
  · rw [hk] at hc
    cases hc

theorem verified_loopJump {leap : LoopLabels → String} (hk : t.children = [])
    (ht : statement t = loopJump loc leap)
    (hleap : ∀ Λ labels outer, a.Fits here t Λ .statement (labels :: outer) →
      a.ahead here ≤ Λ (leap labels)) (h : a.ahead here ≤ a.behind here) :
    a.Verified T here t .statement .statement s i (a.behind here) E := by
  have hcode := code_loopJump loc leap s
  rw [← ht] at hcode
  rcases hloops : s.loops with _ | ⟨labels, outer⟩ <;> rw [hloops] at hcode
  · exact verified_empty hk hcode h
  · refine ⟨[], by rw [lower_statement, hcode]; rfl, fun Λ _ hfits _ => .of_steps ?_
      fun j c _ hc _ => ?_⟩
    · rw [hloops] at hfits
      rw [lower_statement, hcode]
      exact .jump (hleap Λ labels outer hfits)
    · rw [hk] at hc
      cases hc

theorem verified_whileLoop (ht : t = ⟨.whileLoop, "While", false, loc, [cond, body]⟩)
    (hflows : a.Flows T here t) (hcond : a.RunsChild T here t .expression .statement s i 0 cond)
    (hbody : a.VerifiedChild T here t .statement .statement s i (a.behind (here ++ [1])) E 1 body) :
    a.Verified T here t .statement .statement s i (a.behind here) E := by
  subst ht
  obtain ⟨hstart, htest, hround, hexits⟩ := hflows
  have hcond := hcond.of_ahead (ahead_whileLoop_test loc s cond body)
  obtain ⟨ls, hls, hbody⟩ := hbody.of_ahead (ahead_whileLoop_body loc s cond body)
  have hcode := code_whileLoop loc (unlessTrue cond) (statement body) s
  dsimp only at hcode
  rw [code_unlessTrue, after_unlessTrue, ← statement_whileLoop] at hcode
  refine ⟨(s.label, a.ahead (here ++ [0])) :: (ls ++ [(s.labelled.label, a.behind here)]), ?_,
    fun Λ hΛ _ _ => ?_⟩
  · rw [lower_statement] at hls
    rw [lower_statement, hcode]
    simp [hls, labelsIn_of_straight (Plain.straight _)]
  rw [forall_mem_cons, forall_mem_append, forall_mem_singleton] at hΛ
  obtain ⟨hΛstart, hΛbody, hΛdone⟩ := hΛ
  have hbody := hbody Λ hΛbody ((hexits.fits hΛdone hΛstart).child rfl rfl) nofun
  have htested : T.Leads Λ i (a.ahead here) [.label s.label] (a.ahead (here ++ [0])) :=
    .label_of_eq hstart hΛstart
  have hentered := htested.cons ((hcond Λ).whole.append (htest.leads hΛdone))
  refine .of_steps ?_ fun j c part' hc hpart => ?_
  · rw [lower_statement, hcode]
    exact hentered.append (hbody.whole.append (.jump_label hround hΛstart hΛdone))
  · rcases j with _ | _ | _ <;> cases hc <;> cases hpart
    · exact ⟨_, _, _, _, ahead_whileLoop_test loc s cond body, htested, hcond Λ⟩
    · exact ⟨_, _, _, _, ahead_whileLoop_body loc s cond body, hentered, hbody⟩

theorem verified_doWhile (ht : t = ⟨.doWhile, "DoWhile", false, loc, [body, cond]⟩)
    (hflows : a.Flows T here t)
    (hbody : a.VerifiedChild T here t .statement .statement s i (a.behind (here ++ [0])) E 0 body)
    (hcond : a.RunsChild T here t .expression .statement s i 1 cond) :
    a.Verified T here t .statement .statement s i (a.behind here) E := by
  subst ht
  obtain ⟨hstart, hround, htest, hexits⟩ := hflows
  obtain ⟨ls, hls, hbody⟩ := hbody.of_ahead (ahead_doWhile_body loc s cond body)
  have hcond := hcond.of_ahead (ahead_doWhile_test loc s cond body)
  have hcode := code_doWhile loc (unlessTrue cond) (statement body) s
  dsimp only at hcode
  rw [code_unlessTrue, ← statement_doWhile, append_cons] at hcode
  refine ⟨(s.label, a.ahead (here ++ [0])) :: (ls ++ [(s.labelled.label, a.ahead (here ++ [1])),
    (s.labelled.labelled.label, a.behind here)]), ?_, fun Λ hΛ _ _ => ?_⟩
  · rw [lower_statement] at hls
    rw [lower_statement, hcode]
    simp [hls, labelsIn_of_straight (Plain.straight _)]
  rw [forall_mem_cons, forall_mem_append, forall_mem_cons, forall_mem_singleton] at hΛ
  obtain ⟨hΛstart, hΛbody, hΛnext, hΛdone⟩ := hΛ
  have hbody := hbody Λ hΛbody ((hexits.fits hΛdone hΛnext).child rfl rfl) nofun
  have hentered : T.Leads Λ i (a.ahead here) [.label s.label] (a.ahead (here ++ [0])) :=
    .label_of_eq hstart hΛstart
  have htested := hentered.cons (hbody.whole.append (.label_of_eq hround hΛnext))
  refine .of_steps ?_ fun j c part' hc hpart => ?_
  · rw [lower_statement, hcode]
    exact htested.append (((hcond Λ).whole.append (htest.leads hΛdone)).append
      (.jump_label le_rfl hΛstart hΛdone))
  · rcases j with _ | _ | _ <;> cases hc <;> cases hpart
    · exact ⟨_, _, _, _, ahead_doWhile_body loc s cond body, hentered, hbody⟩
    · exact ⟨_, _, _, _, ahead_doWhile_test loc s cond body, htested, hcond Λ⟩

theorem leads_unlessOmitted {A A' : X → Prop} {l : String} (hl : Λ l = C)
    (hskip : cond.kind = .empty → A ≤ A')
    (htest : cond.kind ≠ .empty → T.Leads Λ i A (code (expression cond .value) s) B ∧
      T.Tests B A' C) :
    T.Leads Λ i A (code (unlessOmitted cond l) s) A' := by
  unfold unlessOmitted
  by_cases hk : cond.kind = .empty
  · rw [if_pos hk]
    exact .nil (hskip hk)
  · rw [if_neg hk, code_unlessTrue]
    exact (htest hk).1.append ((htest hk).2.leads hl)

theorem labelsIn_unlessOmitted (c : Tree) (l : String) (s : Emit.State) :
    labelsIn (code (unlessOmitted c l) s) = [] := by
  unfold unlessOmitted
  split
  · rfl
  · rw [code_unlessTrue, labelsIn_append, labelsIn_of_straight (Plain.straight s)]
    rfl

theorem part?_omissible (h : (if c.kind = .empty then none else some Tree.Part.expression) =
      some part) :
    c.kind ≠ .empty ∧ part = .expression := by
  split at h
  · cases h
  · next hk =>
    cases h
    exact ⟨hk, rfl⟩

theorem verified_forLoop {first step : Tree}
    (ht : t = ⟨.forLoop, "For", false, loc, [first, cond, step, body]⟩) (hflows : a.Flows T here t)
    (hfirst : a.VerifiedChild T here t .statement .statement s i (a.behind (here ++ [0])) E 0 first)
    (hcond : cond.kind ≠ .empty → a.RunsChild T here t .expression .statement s i 1 cond)
    (hbody : a.VerifiedChild T here t .statement .statement s i (a.behind (here ++ [3])) E 3 body)
    (hskip : step.kind = .empty → ∀ s, code (expression step .effect) s = [])
    (hstep : step.kind ≠ .empty → a.RunsChild T here t .expression .statement s i 2 step) :
    a.Verified T here t .statement .statement s i (a.behind here) E := by
  subst ht
  obtain ⟨hstart, hopened, htest, hround, hagain, hexits⟩ := hflows
  have haheadTest := ahead_forLoop_test loc s first cond step body
  have haheadBody := ahead_forLoop_body loc s first cond step body
  have haheadStep := ahead_forLoop_step loc s first cond step body
  have hcode : code (statement ⟨.forLoop, "For", false, loc, [first, cond, step, body]⟩) s =
      code (statement first) s.enter ++ code (forLoop loc (unlessOmitted cond) (statement body)
        (expression step .effect)) (after (statement first) s.enter) := by
    rw [statement_forLoop, code_inScope, code_bind]
  rw [code_forLoop] at hcode
  dsimp only at haheadTest haheadBody haheadStep hcode
  generalize after (statement first) s.enter = opened at haheadTest haheadBody haheadStep hcode
  generalize after (unlessOmitted cond _) _ = tested at haheadBody haheadStep hcode
  obtain ⟨ls, hls, hfirst⟩ := hfirst.of_ahead (ahead_forLoop_first loc s first cond step body)
  have hcond := fun hk => (hcond hk).of_ahead haheadTest
  obtain ⟨ls', hls', hbody⟩ := hbody.of_ahead haheadBody
  have hstep := fun hk => (hstep hk).of_ahead haheadStep
  rw [lower_statement, code_blank] at hls
  rw [lower_statement] at hls'
  refine ⟨ls ++ (opened.label, a.ahead (here ++ [1])) ::
    (ls' ++ [(opened.labelled.label, a.ahead (here ++ [2])),
    (opened.labelled.labelled.label, a.behind here)]), ?_, fun Λ hΛ hfits _ => ?_⟩
  · rw [lower_statement, hcode]
    simp [hls, hls', labelsIn_of_straight (Plain.straight _), labelsIn_unlessOmitted]
  rw [forall_mem_append, forall_mem_cons, forall_mem_append, forall_mem_cons,
    forall_mem_singleton] at hΛ
  obtain ⟨hΛfirst, hΛstart, hΛbody, hΛnext, hΛdone⟩ := hΛ
  have hfirst := hfirst Λ hΛfirst (hfits.child rfl rfl) nofun
  have hbody := hbody Λ hΛbody ((hexits.fits hΛdone hΛnext).child rfl rfl) nofun
  have hfirst' : T.Leads Λ i (a.ahead here) (code (statement first) s.enter)
      (a.behind (here ++ [0])) :=
    hfirst.whole.mono_left hstart
  have htested : T.Leads Λ i (a.ahead here)
    (code (statement first) s.enter ++ [Instr.label opened.label])
      (a.ahead (here ++ [1])) := hfirst'.append (.label_of_eq hopened hΛstart)
  have hentered : T.Leads Λ i (a.ahead here)
    (code (statement first) s.enter ++ Instr.label opened.label ::
      code (unlessOmitted cond opened.labelled.labelled.label) opened.labelled.labelled.labelled)
      (a.ahead (here ++ [3])) := by
    rw [append_cons]
    refine htested.append (leads_unlessOmitted hΛdone (fun hk => ?_) fun hk =>
      ⟨(hcond hk Λ).whole, ?_⟩)
    · rwa [if_pos hk] at htest
    · rwa [if_neg hk] at htest
  have hstepped := hentered.append (hbody.whole.append (.label_of_eq hround hΛnext))
  rw [append_assoc, cons_append] at hstepped
  have hlast (j : Nat) (s' : Emit.State)
      (hj : step.kind ≠ .empty → T.Leads Λ j (a.ahead (here ++ [2]))
      (code (expression step .effect) s') (a.behind (here ++ [2]))) :
      T.Leads Λ j (a.ahead (here ++ [2])) (code (expression step .effect) s')
          (a.ahead (here ++ [1])) := by
    by_cases hk : step.kind = .empty
    · rw [if_pos hk] at hagain
      rw [hskip hk]
      exact .nil hagain
    · rw [if_neg hk] at hagain
      exact (hj hk).mono_right hagain
  refine .of_steps ?_ fun j c part' hc hpart => ?_
  · have hwhole := hstepped.append
      ((hlast _ _ fun hk => (hstep hk Λ).whole).append (.jump_label le_rfl hΛstart hΛdone))
    rw [lower_statement, hcode]
    simpa only [lower_statement, append_assoc, cons_append, nil_append] using hwhole
  · match j with
    | 0 =>
      cases hc
      cases hpart
      exact ⟨_, _, _, _, ahead_forLoop_first loc s first cond step body, .nil hstart, hfirst⟩
    | 1 =>
      cases hc
      obtain ⟨hk, rfl⟩ := part?_omissible hpart
      exact ⟨_, _, _, _, haheadTest, htested, hcond hk Λ⟩
    | 2 =>
      cases hc
      obtain ⟨hk, rfl⟩ := part?_omissible hpart
      exact ⟨_, _, _, _, haheadStep, hstepped, hstep hk Λ⟩
    | 3 =>
      cases hc
      cases hpart
      exact ⟨_, _, _, _, haheadBody, hentered, hbody⟩
    | _ + 4 => cases hc

theorem verified_elseIf {done : String} (ht : t = ⟨.elseIf, "ElseIf", false, loc, [cond, body]⟩)
    (hflows : a.Alternative T here t B E)
    (hcond : a.RunsChild T here t .expression (.branch done) s i 0 cond)
    (hbody : a.VerifiedChild T here t .statement (.branch done) s i (a.behind (here ++ [1]))
      E 1 body) :
    a.Verified T here t .branch (.branch done) s i B E := by
  subst ht
  obtain ⟨hstart, htest, hdone⟩ := hflows
  have hcond := hcond.of_ahead (ahead_elseIf_test loc s cond body done)
  obtain ⟨ls, hls, hbody⟩ := hbody.of_ahead (ahead_elseIf_body loc s cond body done)
  have hcode : code (lower (.branch done) ⟨.elseIf, "ElseIf", false, loc, [cond, body]⟩) s =
      code (expression cond .value) s.labelled ++ [Instr.jumpIfZero s.label] ++
        (code (statement body) (after (expression cond .value) s.labelled) ++
            [Instr.jump done, .label s.label]) := by
    rw [lower, branches_elseIf, branches_nil, code_bind, code_branch, code_pure, append_nil]
    simp
  refine ⟨ls ++ [(s.label, B)], ?_, fun Λ hΛ hfits hΛdone => ?_⟩
  · rw [lower_statement] at hls
    rw [hcode]
    simp [hls, labelsIn_of_straight (Plain.straight _)]
  rw [forall_mem_append, forall_mem_singleton] at hΛ
  obtain ⟨hΛbody, hΛnext⟩ := hΛ
  have hloops : (after (expression cond .value) s.labelled).loops = s.loops :=
    (Steady.extend (x := expression cond .value) s.labelled).loops_eq
  have hbody := hbody Λ hΛbody (hloops ▸ hfits.child rfl rfl) (by rintro _ ⟨⟩)
  have hentered := ((hcond Λ).whole.mono_left hstart).append (htest.leads hΛnext)
  refine .of_steps ?_ fun j c part' hc hpart => ?_
  · rw [hcode]
    exact hentered.append (hbody.whole.append
      (.jump_label (hdone.trans (hΛdone done rfl)) rfl hΛnext))
  · rcases j with _ | _ | _ <;> cases hc <;> cases hpart
    · exact ⟨_, _, _, _, ahead_elseIf_test loc s cond body done, .nil hstart, hcond Λ⟩
    · exact ⟨_, _, _, _, ahead_elseIf_body loc s cond body done, hentered, hbody⟩

theorem Verified.last {done : String} (h : a.Verified T here t .statement .statement s i B E)
    (ht : branches done [t] = statement t) :
    a.Verified T here t .branch (.branch done) s i B E := by
  have hlower : lower (.branch done) t = lower .statement t := ht
  obtain ⟨ls, hls, h⟩ := h
  refine ⟨ls, by rw [hls, hlower], fun Λ hΛ hfits _ => ?_⟩
  have hfits' : a.Fits here t Λ .statement s.loops := by
    intro labels outer hloops p part' u hp
    cases p with
    | nil =>
      cases hp
      exact hfits labels outer hloops [] .branch t rfl
    | cons j p => exact hfits labels outer hloops (j :: p) part' u hp
  obtain ⟨hwhole, hplaces⟩ := h Λ hΛ hfits' nofun
  refine ⟨hlower ▸ hwhole, fun p part' u hp => ?_⟩
  cases p with
  | nil =>
    rw [append_nil]
    exact .nil le_rfl
  | cons j p =>
    have hplace := hplaces (j :: p) part' u hp
    rwa [reach, ← ahead_branch done] at hplace

theorem verified_conditional
    (ht : t = ⟨.conditional, "If", false, loc, cond :: body :: ts⟩) (hflows : a.Flows T here t)
    (hcond : a.RunsChild T here t .expression .statement s i 0 cond)
    (hbody : a.VerifiedChild T here t .statement .statement s i (a.behind (here ++ [1])) E 1 body)
    (hts : ∀ j c, ts[j]? = some c →
      a.VerifiedChild T here t .branch .statement s i (a.next here t (j + 3)) (a.behind here)
      (j + 2) c) :
    a.Verified T here t .statement .statement s i (a.behind here) E := by
  subst ht
  obtain ⟨hstart, htest, hdone, -⟩ := hflows
  have hcond := hcond.of_ahead (ahead_conditional_test loc s cond body ts)
  obtain ⟨ls, hls, hbody⟩ := hbody.of_ahead (ahead_conditional_body loc s cond body ts)
  have hcode : code (statement ⟨.conditional, "If", false, loc, cond :: body :: ts⟩) s =
      code (branch cond (statement body) s.label) s.labelled ++ (code (branches s.label ts)
        (after (branch cond (statement body) s.label) s.labelled) ++ [Instr.label s.label]) := by
    rw [statement_conditional, code_conditional, code_bind, append_assoc]
  have hbranch : code (branch cond (statement body) s.label) s.labelled =
      code (expression cond .value) s.labelled.labelled ++ [Instr.jumpIfZero s.labelled.label] ++
        (code (statement body) (after (expression cond .value) s.labelled.labelled) ++
          [Instr.jump s.label, .label s.labelled.label]) := by
    rw [code_branch]
    simp
  have hts (j : Nat) (c : Tree) (hc : ts[j]? = some c) :=
    (hts j c hc).of_ahead (ahead_conditional_rest ..)
  simp only [length_append, ← Nat.add_assoc] at hts
  obtain ⟨ls', hls', hrow⟩ :=
    exists_row (r := .branch s.label) (k := 2) ts (by rw [branches_nil]; rfl)
    (fun ts c => by rw [branches_append, code_bind]; rfl) le_rfl hts
      (fun j c hc => next_of_getElem? hc)
  generalize a.next here ⟨.conditional, "If", false, loc, cond :: body :: ts⟩ 2 = otherwise
    at htest hrow
  refine ⟨ls ++ (s.labelled.label, otherwise) :: (ls' ++ [(s.label, a.behind here)]), ?_,
    fun Λ hΛ hfits _ => ?_⟩
  · rw [lower_statement] at hls
    rw [lower_statement, hcode, hbranch]
    simp [hls, hls', labelsIn_of_straight (Plain.straight _)]
  rw [forall_mem_append, forall_mem_cons, forall_mem_append, forall_mem_singleton] at hΛ
  obtain ⟨hΛbody, hΛnext, hΛrest, hΛdone⟩ := hΛ
  have hloops : (after (expression cond .value) s.labelled.labelled).loops = s.loops :=
    (Steady.extend (x := expression cond .value) s.labelled.labelled).loops_eq
  have hbody := hbody Λ hΛbody (hloops ▸ hfits.child rfl rfl) (by rintro _ ⟨⟩)
  have hentered := ((hcond Λ).whole.mono_left hstart).append (htest.leads hΛnext)
  have hpassed : T.Leads Λ i (a.ahead here) (code (branch cond (statement body) s.label) s.labelled)
      otherwise := by
    rw [hbranch]
    exact hentered.append (hbody.whole.append (.jump_label hdone hΛdone hΛnext))
  have hloops' (j : Nat) : (after (branches s.label (ts.take j))
      (after (branch cond (statement body) s.label) s.labelled)).loops = s.loops :=
    (Steady.extend (x := branches s.label (ts.take j)) _).loops_eq.trans
      (Steady.extend (x := branch cond (statement body) s.label) s.labelled).loops_eq
  obtain ⟨hrest, hplaces⟩ := hrow Λ hΛrest (fun j c hc => hloops' j ▸ hfits.child hc rfl)
    (by rintro _ ⟨⟩; exact hΛdone.ge)
  refine .of_steps ?_ fun j c part' hc hpart => ?_
  · rw [lower_statement, hcode]
    refine hpassed.append (hrest.append ?_)
    exact .label_of_eq next_length.le hΛdone
  · match j with
    | 0 =>
      cases hc
      cases hpart
      exact ⟨_, _, _, _, ahead_conditional_test loc s cond body ts, .nil hstart, hcond Λ⟩
    | 1 =>
      cases hc
      cases hpart
      exact ⟨_, _, _, _, ahead_conditional_body loc s cond body ts, hentered, hbody⟩
    | j + 2 =>
      cases hpart
      obtain ⟨hstep, hruns⟩ := hplaces j c hc
      rw [Nat.add_assoc, ← length_append] at hruns
      exact ⟨_, _, _, _, ahead_conditional_rest loc s cond body ts j, hpassed.append hstep, hruns⟩

end Constructs

end Outline

open Outline

theorem Role.Suits.straight {r : Role} {part : Tree.Part} {t : Tree} (hr : r.Suits part t)
    (hplain : part = .declarator ∨ part = .expression) (s : Emit.State) :
    ∀ i ∈ code (lower r t) s, i.isStraight := by
  cases hr with
  | program | item | parameter | statement | branch => rcases hplain with h | h <;> cases h
  | declarator ty =>
    rw [lower, code_declarator]
    exact forall_mem_append.mpr ⟨Plain.straight s, forall_mem_singleton.mpr rfl⟩
  | value d => exact Plain.straight (x := expression t d) s
  | name d x loc =>
    rw [code_target_name]
    split <;> simp [Instr.isStraight]
  | entry d x loc loc' e =>
    rw [code_target_entry]
    exact forall_mem_append.mpr ⟨Plain.straight s, forall_mem_singleton.mpr rfl⟩
  | base x loc =>
    rw [code_base]
    exact forall_mem_singleton.mpr rfl

theorem Role.Suits.labelsIn_eq {r : Role} {part : Tree.Part} {t : Tree} (hr : r.Suits part t)
    (hplain : part = .declarator ∨ part = .expression) (s : Emit.State) :
    labelsIn (code (lower r t) s) = [] :=
  labelsIn_of_straight (hr.straight hplain s)

section Verified

variable {N : String → Prop} {T : Tracking X} {a : Outline X} {t : Tree} {here : List Nat}
  {s : Emit.State} {i : Nat}

theorem Typed.verified {ret : Option Ty} {loop : Bool} {Γ Γ' : Scopes} {E : X → Prop}
    (h : Typed N ret loop Γ t Γ') (hflows : a.Flows T here t)
    (hexpr : ∀ j c, t.children[j]? = some c → part? t.kind j c = some .expression →
      a.RunsChild T here t .expression .statement s i j c)
    (hchild : ∀ j c part B E, t.children[j]? = some c → part? t.kind j c = some part →
      (part = .branch → a.Alternative T (here ++ [j]) c B E) →
      (part ≠ .branch → a.behind (here ++ [j]) ≤ B) →
      a.VerifiedChild T here t part .statement s i B E j c) :
    a.Verified T here t .statement .statement s i (a.behind here) E := by
  cases h with
  | omitted loc => exact verified_empty rfl (by rw [statement_omitted]; rfl) hflows
  | block _ _ _ hb =>
    obtain ⟨_, _, _, loc, ts, _⟩ := hb
    exact verified_block rfl hflows fun j c hc =>
      hchild j c .statement _ _ hc rfl nofun fun _ => le_rfl
  | declaration _ _ _ loc ty ds =>
    exact verified_declaration rfl hflows fun j c hc =>
      hchild (j + 1) c .declarator _ _ hc rfl nofun fun _ => le_rfl
  | exprStmt => exact verified_exprStmt rfl hflows (hexpr 0 _ rfl rfl)
  | returnStmt => exact verified_returnStmt rfl hflows (hexpr 0 _ rfl rfl)
  | breakStmt _ loc =>
    refine verified_loopJump rfl (statement_breakStmt loc) (fun Λ labels outer hfits => ?_) hflows
    have := (hfits labels outer rfl [] .statement _ rfl).1 rfl
    rwa [append_nil] at this
  | continueStmt _ loc =>
    refine verified_loopJump rfl (statement_continueStmt loc)
      (fun Λ labels outer hfits => ?_) hflows
    have := (hfits labels outer rfl [] .statement _ rfl).2 rfl
    rwa [append_nil] at this
  | conditional _ _ loc cond body rest =>
    refine verified_conditional rfl hflows (hexpr 0 cond rfl rfl)
      (hchild 1 body .statement _ _ rfl rfl nofun fun _ => le_rfl) fun j c hc => ?_
    exact hchild (j + 2) c .branch _ _ hc rfl (fun _ => hflows.2.2.2 j c hc) (absurd rfl ·)
  | whileLoop _ _ loc cond body =>
    exact verified_whileLoop rfl hflows (hexpr 0 cond rfl rfl)
      (hchild 1 body .statement _ _ rfl rfl nofun fun _ => le_rfl)
  | doWhile _ _ loc body cond =>
    exact verified_doWhile rfl hflows (hchild 0 body .statement _ _ rfl rfl nofun fun _ => le_rfl)
      (hexpr 1 cond rfl rfl)
  | forLoop _ _ _ loc first cond step body _ hcond hstep =>
    refine verified_forLoop rfl hflows (hchild 0 first .statement _ _ rfl rfl nofun fun _ => le_rfl)
      (fun hk => hexpr 1 cond rfl (if_neg hk))
        (hchild 3 body .statement _ _ rfl rfl nofun fun _ => le_rfl)
      (fun hk s => ?_) (fun hk => hexpr 2 step rfl (if_neg hk))
    cases hstep with
    | omitted loc => exact code_omitted loc s
    | expr _ _ hstep => exact absurd hk hstep.kind_ne_empty

end Verified

/-- **The code of a part of a function leads from the assertions ahead of places to those behind
them**, if they fit together around each statement. -/
theorem TypedPart.verified {N : String → Prop} {T : Tracking X} {a : Outline X} {t : Tree} :
    ∀ {σ : Checker.State} {part : Tree.Part} {r : Role} {here : List Nat} {s : Emit.State} {i : Nat}
      {B E : X → Prop},
      TypedPart N σ part t → r.Suits part t → part.IsInner → part ≠ .parameter →
      a.Sound T here t part r s i →
      (part = .branch → a.Alternative T here t B E) → (part ≠ .branch → a.behind here ≤ B) →
      a.Verified T here t part r s i B E := by
  induction t using induction with
  | h t ih =>
    intro σ part r here s i B E h hr hinner hparam hs hbranch hend
    obtain ⟨hprogram, hfunction⟩ := h.kind_ne hinner
    have hexpr (j : Nat) (c : Tree) (hc : t.children[j]? = some c)
        (hpart : part? t.kind j c = some .expression) :
            a.RunsChild T here t .expression r s i j c :=
      (h.step hc hpart).runs (h.splits hr s hc hpart).suits (.inr rfl) (hs.child hc hpart).computes
    have hchild (j : Nat) (c : Tree) (part' : Tree.Part) (B' E' : X → Prop)
        (hc : t.children[j]? = some c) (hpart : part? t.kind j c = some part')
        (hbranch : part' = .branch → a.Alternative T (here ++ [j]) c B' E')
        (hend : part' ≠ .branch → a.behind (here ++ [j]) ≤ B') :
            a.VerifiedChild T here t part' r s i B' E' j c :=
      ih c (mem_of_getElem? hc) (h.step hc hpart) (h.splits hr s hc hpart).suits
        (part?_isInner hprogram hpart) (part?_ne_parameter hfunction hpart) (hs.child hc hpart)
          hbranch hend
    have hflows : a.Flows T here t := append_nil here ▸ hs.flows [] part t rfl
    have hruns (hplain : part = .declarator ∨ part = .expression) := h.runs hr hplain hs.computes
    cases h with
    | program => exact absurd rfl hinner.1
    | function | item => exact absurd rfl hinner.2
    | parameter => exact absurd rfl hparam
    | statement ret loop _ Γ _ ht =>
      cases hr
      exact (ht.verified hflows hexpr hchild).mono (hend nofun)
    | branch ret loop _ _ ht =>
      cases hr with
      | branch done =>
        cases ht with
        | last _ _ _ hb =>
          simp only [RunsChild, VerifiedChild, ahead_branch] at hexpr hchild
          obtain ⟨_, _, _, loc, ts, hts⟩ := hb
          have hblock := (Typed.block _ _ _ (.mk _ _ _ loc ts hts)).verified (E := E)
            hflows hexpr hchild
          exact (hblock.mono (hbranch rfl)).last (branches_last ..)
        | elseIf _ _ loc cond body _ hcond hbody =>
          exact verified_elseIf rfl (hbranch rfl) (hexpr 0 cond rfl rfl)
            (hchild 1 body .statement _ _ rfl rfl nofun fun _ => le_rfl)
    | declarator | expression =>
      exact verified_plain (hr.labelsIn_eq (by simp) s) fun Λ =>
        (hruns (by simp) Λ).mono (hend nofun)

end Stacklet
