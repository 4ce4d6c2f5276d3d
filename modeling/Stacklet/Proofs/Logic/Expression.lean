import Stacklet.Proofs.Emission.Places
import Stacklet.Proofs.Logic
/-!
# Assertions at the places of expressions

* `Outline`: assertions ahead of the parts of a program and behind them, by their places.
* `Outline.Runs`: the code of a part leads from the assertion ahead of it to a given one, and to the
  assertions ahead of the places inside of it.
* `Outline.Computes`: the assertions around a declared name or an expression and around its parts
  fit together.
* `TypedPart.runs`: if they do so at all places of it, its code leads from the assertion ahead of it
  to that behind it.
-/

namespace Stacklet

open Emit List
open Stacklet.Tree hiding lower

variable {d : Demand} {last : List Instr}

/-- Assertions ahead of the parts of a program and behind them, by their places. -/
structure Outline (X : Type) where
  ahead : List Nat → X → Prop
  behind : List Nat → X → Prop

variable {X : Type}

namespace Outline

section Definitions

variable (a : Outline X) (T : Tracking X) (here : List Nat) (t : Tree)

/-- What is known behind the arguments of a call up to the number `j`. -/
def passed (j : Nat) : X → Prop := if j = 0 then a.ahead here else a.behind (here ++ [j])

variable (Λ : String → X → Prop) (part : Tree.Part) (r : Role) (s : Emit.State) (i : Nat)
  (B : X → Prop)

/-- The assertions around a declared name or an expression and around its parts fit together, and
lead to `B` behind it. -/
def Computes : Prop :=
  match r, t.kind, t.children with
  | .declarator ty, _, _ :: _ => a.ahead here ≤ a.ahead (here ++ [0]) ∧
      ∀ Λ j, T.Leads Λ j (a.behind (here ++ [0])) ((if t.isArray then [.newArray] else []) ++
        [Instr.store ((after (initialValue ty t) s).newSlot t.text)]) B
  | .value d, .unary, _ => a.ahead here ≤ a.ahead (here ++ [0]) ∧
      ∀ Λ j, T.Leads Λ j (a.behind (here ++ [0])) (unaryCode t.text ++ dropped d) B
  | .value d, .binary, _ =>
    a.ahead here ≤ a.ahead (here ++ [0]) ∧ a.behind (here ++ [0]) ≤ a.ahead (here ++ [1]) ∧
      ∀ Λ j, T.Leads Λ j (a.behind (here ++ [1])) (.binary (.ofText t.text) :: dropped d) B
  | .value _, .comma, _ =>
    a.ahead here ≤ a.ahead (here ++ [0]) ∧ a.behind (here ++ [0]) ≤ a.ahead (here ++ [1]) ∧
      a.behind (here ++ [1]) ≤ B
  | .value d, .assign, target :: value :: _ => a.ahead here ≤ a.ahead (here ++ [1]) ∧
      if target.kind = .index ∧ d ≠ .effect then
        let held :=
          (hiddenSlot (after (expression value (s.demandOf (s.slotOf (assignedName target)))) s)).1
        (∀ Λ j, T.Leads Λ j (a.behind (here ++ [1])) [.store held, .load held]
          (a.ahead (here ++ [0]))) ∧
          ∀ Λ j, T.Leads Λ j (a.behind (here ++ [0])) [.load held] B
      else a.behind (here ++ [1]) ≤ a.ahead (here ++ [0]) ∧ a.behind (here ++ [0]) ≤ B
  | .value d, .call, f :: args =>
    (∀ j, j < args.length → a.passed here j ≤ a.ahead (here ++ [j + 1])) ∧
      ∀ Λ j, T.Leads Λ j (a.passed here args.length)
        (.call f.text :: if d = .effect ∧ s.leavesValue f.text then [.pop] else []) B
  | .value d, .index, _ =>
    a.ahead here ≤ a.ahead (here ++ [0]) ∧ a.behind (here ++ [0]) ≤ a.ahead (here ++ [1]) ∧
      ∀ Λ j, T.Leads Λ j (a.behind (here ++ [1])) (.loadIndex :: dropped d) B
  | .target _, .index, _ =>
    a.ahead here ≤ a.ahead (here ++ [1]) ∧ a.behind (here ++ [1]) ≤ a.ahead (here ++ [0]) ∧
      a.behind (here ++ [0]) ≤ B
  | _, _, _ => ∀ Λ, T.Leads Λ i (a.ahead here) (code (lower r t) s) B

/-- The code of a part at the index `i` leads from the assertion ahead of it to `B`, and to the
assertions ahead of the places inside of it. -/
structure Runs : Prop where
  whole : T.Leads Λ i (a.ahead here) (code (lower r t) s) B
  places : ∀ p part' u, partAt? p part t = some (part', u) →
    T.Leads Λ i (a.ahead here) (code (reach p r t) s) (a.ahead (here ++ p))

/-- The code of the child with number `j` leads from the assertion ahead of it to that behind it,
whatever is expected at labels. -/
def RunsChild (j : Nat) (c : Tree) : Prop :=
  ∀ Λ, a.Runs T (here ++ [j]) c Λ part (Emit.ahead r t j s).1 (after (Emit.ahead r t j) s)
    (i + (code (Emit.ahead r t j) s).length) (a.behind (here ++ [j]))

end Definitions

variable {a : Outline X} {T : Tracking X} {here : List Nat} {t c : Tree} {Λ : String → X → Prop}
  {part part' : Tree.Part} {r : Role} {s : Emit.State} {i j : Nat} {B B' : X → Prop}

theorem partAt?_child (hc : t.children[j]? = some c) (hpart : part? t.kind j c = some part')
    (p : List Nat) :
    partAt? (j :: p) part t = partAt? p part' c := by
  rw [partAt?, hc]
  simp [hpart]

theorem Runs.mono (h : a.Runs T here t Λ part r s i B) (hB : B ≤ B') :
    a.Runs T here t Λ part r s i B' :=
  ⟨h.whole.mono_right hB, h.places⟩

theorem computes_blank : a.Computes T here t r s.blank i B ↔ a.Computes T here t r s i B := by
  have hslot (x : String) : s.blank.slotOf x = s.slotOf x := rfl
  have hdemand (x : String) : s.blank.demandOf x = s.demandOf x := rfl
  simp only [Computes, after_blank, code_blank, hslot, hdemand, State.leavesValue_blank]
  exact Iff.rfl

theorem RunsChild.of_ahead {r' : Role} {before : List Instr} {s' : Emit.State}
    (h : a.RunsChild T here t part r s i j c) (hahead : Ahead r t j s r' before s') :
    ∀ Λ, a.Runs T (here ++ [j]) c Λ part r' s' (i + before.length) (a.behind (here ++ [j])) := by
  obtain ⟨rfl, rfl, rfl⟩ := hahead
  exact h

theorem Runs.of_steps (hwhole : T.Leads Λ i (a.ahead here) (code (lower r t) s) B)
    (hsteps : ∀ j c part', t.children[j]? = some c → part? t.kind j c = some part' →
      ∃ r' before s' B',
      Ahead r t j s r' before s' ∧ T.Leads Λ i (a.ahead here) before (a.ahead (here ++ [j])) ∧
      a.Runs T (here ++ [j]) c Λ part' r' s' (i + before.length) B') :
    a.Runs T here t Λ part r s i B := by
  refine ⟨hwhole, fun p part' u hp => ?_⟩
  cases p with
  | nil =>
    rw [append_nil]
    exact .nil le_rfl
  | cons j p =>
    obtain ⟨c, part₁, hc, hpart, hp⟩ := partAt?_cons hp
    obtain ⟨_, _, _, B', ⟨rfl, rfl, rfl⟩, hstep, hchild⟩ := hsteps j c part₁ hc hpart
    have hplace := hchild.places p part' u hp
    rw [append_assoc, singleton_append] at hplace
    rw [reach_cons hc, code_bind]
    exact hstep.append hplace

theorem runs_leaf (hchildren : t.children = [])
    (h : ∀ Λ, T.Leads Λ i (a.ahead here) (code (lower r t) s) B) :
    ∀ Λ, a.Runs T here t Λ part r s i B := by
  refine fun Λ => .of_steps (h Λ) fun j c part' hc _ => ?_
  rw [hchildren] at hc
  cases hc

theorem runs_single {r' : Role} {s' : Emit.State} (hchildren : t.children = [c])
    (hpart : part? t.kind 0 c = some part') (hahead : Ahead r t 0 s r' [] s')
    (hcode : code (lower r t) s = code (lower r' c) s' ++ last)
    (hstart : a.ahead here ≤ a.ahead (here ++ [0]))
    (hend : ∀ Λ j, T.Leads Λ j (a.behind (here ++ [0])) last B)
    (hc : a.RunsChild T here t part' r s i 0 c) :
    ∀ Λ, a.Runs T here t Λ part r s i B := by
  intro Λ
  have hruns := hc.of_ahead hahead Λ
  refine .of_steps ?_ fun j c' part'' hj hpart' => ?_
  · rw [hcode]
    exact (hruns.whole.mono_left hstart).append (hend Λ _)
  · rw [hchildren] at hj
    match j with
    | 0 =>
      cases hj
      cases hpart.symm.trans hpart'
      exact ⟨_, _, _, _, hahead, .nil hstart, hruns⟩
    | _ + 1 => cases hj

theorem runs_pair {j' : Nat} {c' : Tree} {r₁ r₂ : Role} {s₁ s₂ : Emit.State} {before : List Instr}
    (between : List Instr) (honly : ∀ k u part', t.children[k]? = some u →
      part? t.kind k u = some part' →
      part' = .expression ∧ (k = j ∧ u = c ∨ k = j' ∧ u = c'))
    (hahead : Ahead r t j s r₁ [] s₁) (hahead' : Ahead r t j' s r₂ before s₂)
    (hbefore : before = code (lower r₁ c) s₁ ++ between)
    (hcode : code (lower r t) s = before ++ (code (lower r₂ c') s₂ ++ last))
    (hstart : a.ahead here ≤ a.ahead (here ++ [j]))
    (hbetween : ∀ Λ k, T.Leads Λ k (a.behind (here ++ [j])) between (a.ahead (here ++ [j'])))
    (hend : ∀ Λ k, T.Leads Λ k (a.behind (here ++ [j'])) last B)
    (hc : a.RunsChild T here t .expression r s i j c)
    (hc' : a.RunsChild T here t .expression r s i j' c') :
    ∀ Λ, a.Runs T here t Λ part r s i B := by
  intro Λ
  have hruns := hc.of_ahead hahead Λ
  have hruns' := hc'.of_ahead hahead' Λ
  have hfirst : T.Leads Λ i (a.ahead here) before (a.ahead (here ++ [j'])) := by
    rw [hbefore]
    exact (hruns.whole.mono_left hstart).append (hbetween Λ _)
  refine .of_steps ?_ fun k u part' hk hpart => ?_
  · rw [hcode]
    exact hfirst.append (hruns'.whole.append (hend Λ _))
  · obtain ⟨rfl, ⟨rfl, rfl⟩ | ⟨rfl, rfl⟩⟩ := honly k u part' hk hpart
    · exact ⟨_, _, _, _, hahead, .nil hstart, hruns⟩
    · exact ⟨_, _, _, _, hahead', hfirst, hruns'⟩

theorem runs_call {f : Tree} {args : List Tree} {loc : Loc}
    (ht : t = ⟨.call, "Call", false, loc, f :: args⟩)
    (hcode : code (lower (.value d) t) s = code (values args) s ++ last)
    (hstart : ∀ j, j < args.length → a.passed here j ≤ a.ahead (here ++ [j + 1]))
    (hend : ∀ Λ k, T.Leads Λ k (a.passed here args.length) last B)
    (hargs : ∀ j c, args[j]? = some c → a.RunsChild T here t .expression (.value d) s i (j + 1) c) :
    ∀ Λ, a.Runs T here t Λ .expression (.value d) s i B := by
  subst ht
  intro Λ
  have hruns (j : Nat) (c : Tree) (hc : args[j]? = some c) :=
    (hargs j c hc).of_ahead (ahead_argument loc d s f args j) Λ
  have hrow (j : Nat) (hj : j ≤ args.length) :
      T.Leads Λ i (a.ahead here) (code (values (args.take j)) s) (a.passed here j) := by
    induction j with
    | zero =>
      rw [take_zero, code_values_nil]
      exact .nil le_rfl
    | succ j ih =>
      have hc := getElem?_eq_getElem hj
      have hsnoc : code (values (args.take (j + 1))) s =
          code (values (args.take j)) s ++ code (expression args[j] .value)
              (after (values (args.take j)) s) := by
        rw [take_add_one, hc, Option.toList_some, code_values_append, code_values_cons,
          code_values_nil, append_nil]
      rw [hsnoc]
      exact ((ih (Nat.le_of_lt hj)).mono_right (hstart j hj)).append (hruns j _ hc).whole
  refine .of_steps ?_ fun k u part' hk hpart => ?_
  · rw [hcode]
    have := hrow args.length (Nat.le_refl _)
    rw [take_length] at this
    exact this.append (hend Λ _)
  · match k with
    | 0 => cases hpart
    | k + 1 =>
      cases hpart
      have hk' : k < args.length := (getElem?_eq_some_iff (l := args).mp hk).1
      exact ⟨_, _, _, _, ahead_argument loc d s f args k, (hrow k (Nat.le_of_lt hk')).mono_right
        (hstart k hk'), hruns k u hk⟩

end Outline

open Outline

section Runs

variable {T : Tracking X} {a : Outline X} {t : Tree} {here : List Nat} {s : Emit.State} {i : Nat}
  {B : X → Prop}

theorem Tree.eq_of_pair {l e u : Tree} {part : Tree.Part} {k : Nat} (h : [l, e][k]? = some u)
    (hpart : some .expression = some part) :
    part = .expression ∧ (k = 0 ∧ u = l ∨ k = 1 ∧ u = e) := by
  refine ⟨(Option.some.inj hpart).symm, ?_⟩
  match k with
  | 0 =>
    cases h
    exact .inl ⟨rfl, rfl⟩
  | 1 =>
    cases h
    exact .inr ⟨rfl, rfl⟩
  | _ + 2 => cases h

theorem HasType.runs {Γ : Scopes} {ty : Ty} (h : HasType Γ t ty)
    (hcomputes : a.Computes T here t (.value d) s i B)
    (hparts : ∀ j c, t.children[j]? = some c → part? t.kind j c = some .expression →
      a.RunsChild T here t .expression (.value d) s i j c) :
    ∀ Λ, a.Runs T here t Λ .expression (.value d) s i B := by
  cases h with
  | number | string | var => exact runs_leaf rfl hcomputes
  | unary op loc e =>
    obtain ⟨hstart, hend⟩ := hcomputes
    exact runs_single rfl rfl (ahead_unary loc d s op e) (code_unary loc d s op e) hstart hend
      (hparts 0 e rfl rfl)
  | binary op loc l e =>
    obtain ⟨hstart, hnext, hend⟩ := hcomputes
    exact runs_pair [] (fun k u _ => eq_of_pair) (ahead_left_binary loc d s op l e)
      (ahead_right_binary loc d s op l e) (append_nil _).symm (code_binary loc d s op l e) hstart
      (fun _ _ => .nil hnext) hend (hparts 0 l rfl rfl) (hparts 1 e rfl rfl)
  | comma loc l e =>
    obtain ⟨hstart, hnext, hend⟩ := hcomputes
    refine runs_pair [] (fun k u _ => eq_of_pair) (ahead_left_comma loc d s l e)
      (ahead_right_comma loc d s l e)
      (append_nil _).symm ?_ hstart (fun _ _ => .nil hnext) (fun _ _ => .nil hend)
        (hparts 0 l rfl rfl)
      (hparts 1 e rfl rfl)
    rw [append_nil]
    exact code_comma loc d s l e
  | index loc base e =>
    obtain ⟨hstart, hnext, hend⟩ := hcomputes
    exact runs_pair [] (fun k u _ => eq_of_pair) (ahead_left_index loc d s base e)
      (ahead_right_index loc d s base e) (append_nil _).symm (code_index loc d s base e) hstart
      (fun _ _ => .nil hnext) hend (hparts 0 base rfl rfl) (hparts 1 e rfl rfl)
  | assign loc loc' x value =>
    obtain ⟨hstart, hrest⟩ := hcomputes
    rw [if_neg (by rintro ⟨⟨⟩, -⟩)] at hrest
    refine runs_pair [] (fun k u _ hk hpart => (eq_of_pair hk hpart).imp_right Or.symm)
      (ahead_assigned loc d s (.nameAt x loc') value) (ahead_target_name loc d s x loc' value)
        (append_nil _).symm ?_
      hstart (fun _ _ => .nil hrest.1) (fun _ _ => .nil hrest.2) (hparts 1 value rfl rfl)
        (hparts 0 _ rfl rfl)
    rw [lower_value, code_assign, code_target_name, slotOf_after, append_nil]
  | assignItem loc loc' loc'' x e value =>
    obtain ⟨hstart, hrest⟩ := hcomputes
    by_cases hd : d = .effect
    · subst hd
      rw [if_neg fun h => h.2 rfl] at hrest
      refine runs_pair [] (fun k u _ hk hpart => (eq_of_pair hk hpart).imp_right Or.symm)
        (ahead_assigned loc _ s _ value) (ahead_target_effect loc s x loc' loc'' e value)
          (append_nil _).symm ?_
        hstart (fun _ _ => .nil hrest.1) (fun _ _ => .nil hrest.2) (hparts 1 value rfl rfl)
          (hparts 0 _ rfl rfl)
      rw [lower_value, code_assignItem_effect, code_target_entry, slotOf_after, append_nil]
    · rw [if_pos ⟨rfl, hd⟩] at hrest
      refine runs_pair _ (fun k u _ hk hpart => (eq_of_pair hk hpart).imp_right Or.symm)
        (ahead_assigned loc d s _ value) (ahead_target_entry loc d s hd x loc' loc'' e value) rfl ?_
          hstart hrest.1 hrest.2
        (hparts 1 value rfl rfl) (hparts 0 _ rfl rfl)
      rw [lower_value, code_assignItem loc d s x loc' loc'' e value hd, code_target_entry,
        slotOf_after hiddenSlot, slotOf_after]
      simp [assignedName, nameAt]
  | call loc loc' f args =>
    obtain ⟨hstart, hend⟩ := hcomputes
    exact runs_call rfl (code_call loc d s f loc' args) hstart hend fun j c hc =>
      hparts (j + 1) c hc rfl

theorem runs_entry {x : String} {loc loc' : Loc} {e : Tree}
    (ht : t = ⟨.index, "Index", false, loc, [.nameAt x loc', e]⟩)
    (hcomputes : a.Computes T here t (.target d) s i B)
    (hparts : ∀ j c, t.children[j]? = some c → part? t.kind j c = some .expression →
      a.RunsChild T here t .expression (.target d) s i j c) :
    ∀ Λ, a.Runs T here t Λ .expression (.target d) s i B := by
  subst ht
  obtain ⟨hstart, hnext, hend⟩ := hcomputes
  refine runs_pair [] (fun k u _ hk hpart => (eq_of_pair hk hpart).imp_right Or.symm)
    (ahead_entry loc d s x loc' e)
    (ahead_base loc d s x loc' e) (append_nil _).symm ?_ hstart (fun _ _ => .nil hnext)
      (fun _ _ => .nil hend)
    (hparts 1 e rfl rfl) (hparts 0 _ rfl rfl)
  rw [code_target_entry, code_base, slotOf_after, append_nil]

theorem Declares.runs {N : String → Prop} {Γ Γ' : Scopes} {ty ty' : Ty} (h : Declares N ty Γ t Γ')
    (hcomputes : a.Computes T here t (.declarator ty') s i B)
    (hparts : ∀ j c, t.children[j]? = some c → part? t.kind j c = some .expression →
      a.RunsChild T here t .expression (.declarator ty') s i j c) :
    ∀ Λ, a.Runs T here t Λ .declarator (.declarator ty') s i B := by
  cases h with
  | plain => exact runs_leaf rfl hcomputes
  | initial x loc e =>
    obtain ⟨hstart, hend⟩ := hcomputes
    exact runs_single rfl rfl (ahead_initial _ 0 s ty') (code_declarator ty' _ s) hstart hend
      (hparts 0 e rfl rfl)
  | array x loc e =>
    obtain ⟨hstart, hend⟩ := hcomputes
    have hcode := code_declarator ty' ⟨.declarator, x, true, loc, [e]⟩ s
    rw [code_initialValue_array, append_assoc] at hcode
    exact runs_single rfl rfl (ahead_initial _ 0 s ty') hcode hstart hend (hparts 0 e rfl rfl)

end Runs

/-- **The code of declared names and expressions leads from the assertions ahead of places to those
behind them**, if they fit together at each place. -/
theorem TypedPart.runs {N : String → Prop} {T : Tracking X} {a : Outline X} {t : Tree} :
    ∀ {σ : Checker.State} {part : Tree.Part} {r : Role} {here : List Nat} {s : Emit.State}
      {i : Nat},
      TypedPart N σ part t → r.Suits part t → (part = .declarator ∨ part = .expression) →
      (∀ p part' u, partAt? p part t = some (part', u) → part' = .declarator ∨ part' = .expression →
        a.Computes T (here ++ p) u (Emit.reach p r t s).1 (Emit.after (Emit.reach p r t) s)
          (i + (code (Emit.reach p r t) s).length) (a.behind (here ++ p))) →
      ∀ Λ, a.Runs T here t Λ part r s i (a.behind here) := by
  induction t using induction with
  | h t ih =>
    intro σ part r here s i h hr hplain hcomputes
    have hhere : a.Computes T here t r s i (a.behind here) := by
      have := hcomputes [] part t rfl hplain
      rw [append_nil] at this
      exact computes_blank.mp this
    have hparts (j : Nat) (c : Tree) (hc : t.children[j]? = some c)
        (hpart : part? t.kind j c = some .expression) :
            a.RunsChild T here t .expression r s i j c := by
      refine ih c (mem_of_getElem? hc) (h.step hc hpart) (h.splits hr s hc hpart).suits (.inr rfl)
        fun p part' u hp hplain' => ?_
      have := hcomputes (j :: p) part' u ((partAt?_child hc hpart p).trans hp) hplain'
      rw [reach_cons hc, result_bind, after_bind, code_bind, length_append, ← Nat.add_assoc] at this
      rw [append_assoc, singleton_append]
      exact this
    cases h with
    | declarator _ _ ty _ _ _ _ hd =>
      cases hr with
      | declarator ty' => exact hd.runs hhere hparts
    | expression _ _ _ ty _ he =>
      cases hr with
      | value d => exact he.runs hhere hparts
      | name | base => exact runs_leaf rfl hhere
      | entry => exact runs_entry rfl hhere hparts
    | _ => rcases hplain with hp | hp <;> cases hp

end Stacklet
