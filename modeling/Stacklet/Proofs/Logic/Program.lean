import Stacklet.Proofs.Logic.Statement
import Stacklet.Proofs.Scoping.Program
import Stacklet.Proofs.Simulation.Program
/-!
# Assertions at the places of programs

* `FunctionIn.exists_labels`: if the assertions at the places of a function fit together, the code
  of the function leads to them, with some assertions at its labels.
* `Assertions`: assertions about all functions of a program. `Assertions.At`: what holds at an index
  of the code of one of them. `At.onward`, `At.jump`, …: it holds again where an instruction goes.
-/

namespace Stacklet

open Emit List
open Stacklet.Tree hiding lower

variable {p : List Nat} {Γ : Scopes} {part : Tree.Part}

variable {X : Type} {N : String → Prop} {t c body : Tree} {k b : Nat}

/-! ## Functions -/

namespace Tree

theorem at_item (hc : t.children[k]? = some c) :
    t.roleAt [k] = .item ∧ t.loweredAt [k] = t.itemState k ∧
      (t.codeAhead [k]).length = t.itemStart k := by
  obtain ⟨hrole, hcode, hafter⟩ := ahead_item t k t.start
  rw [roleAt, loweredAt, codeAhead, Emit.reach_cons hc, result_bind, after_bind, code_bind]
  refine ⟨hrole, ?_, ?_⟩
  · rw [hafter]
    rfl
  · rw [hcode]
    simp [Emit.reach, itemStart_eq_length]

theorem length_codeAhead {before : List Instr} (hc : t.children[k]? = some c)
    (h : t.codeAhead p = t.codeAhead [k] ++ before) :
    (t.codeAhead p).length = t.itemStart k + before.length := by
  rw [h, length_append, (at_item hc).2.2]

end Tree

theorem FunctionIn.partAt?_eq (ht : FunctionIn N t k c) (p : List Nat) :
    partAt? (k :: p) .program t = partAt? p .item c :=
  Outline.partAt?_child ht.child_eq (by rw [ht.kind_eq]; rfl) p

theorem FunctionIn.at_body (ht : FunctionIn N t k c) (hb : c.children[b]? = some body)
    (hblock : body.kind = .block) :
    partAt? [k, b] .program t = some (.statement, body) ∧ t.roleAt [k, b] = .statement ∧
      t.loweredAt [k, b] = after (prologue c) (t.itemState k) ∧
      t.codeAhead [k, b] = t.codeAhead [k] ++ code (prologue c) (t.itemState k) := by
  have hp := ht.at_item
  have hahead := ahead_body ht.isFunction hb hblock
  obtain ⟨hrole, hstate, -⟩ := Tree.at_item ht.child_eq
  refine ⟨partAt?_snoc hp hb (by rw [ht.isFunction, part?, hblock]), ?_, ?_, ?_⟩
  · rw [show [k, b] = [k] ++ [b] from rfl, roleAt_append hp, hrole, Emit.reach_cons hb, hahead]
    rfl
  · rw [show [k, b] = [k] ++ [b] from rfl, loweredAt_append hp, hrole, hstate,
      Emit.reach_cons hb, hahead]
    simp [Emit.reach]
  · rw [show [k, b] = [k] ++ [b] from rfl, codeAhead_append hp, hrole, hstate,
      Emit.reach_cons hb, hahead]
    simp [Emit.reach]

theorem Tracking.Leads.of_endsInRet {T : Tracking X} {Λ : String → X → Prop} {i : Nat}
    {A B B' : X → Prop} {instrs : List Instr} (h : T.Leads Λ i A instrs B)
    (hret : endsInRet instrs) : T.Leads Λ i A instrs B' := by
  rcases eq_nil_or_concat instrs with rfl | ⟨before, instr, rfl⟩
  · cases hret
  · rw [concat_eq_append] at h hret ⊢
    rw [endsInRet_concat] at hret
    obtain ⟨C, hbefore, hlast⟩ := append_iff.mp h
    cases instr with
    | ret => exact hbefore.append (.ret hlast.1)
    | _ => cases hret

theorem exists_forall_label {ls : List (String × (X → Prop))} (h : (ls.map Prod.fst).Nodup) :
    ∃ Λ : String → X → Prop, ∀ e ∈ ls, Λ e.1 = e.2 := by
  induction ls with
  | nil => exact ⟨fun _ _ => True, forall_mem_nil _⟩
  | cons e ls ih =>
    rw [map_cons, nodup_cons] at h
    obtain ⟨Λ, hΛ⟩ := ih h.2
    refine ⟨Function.update Λ e.1 e.2,
      forall_mem_cons.mpr ⟨Function.update_self .., fun e' he' => ?_⟩⟩
    have hne : e'.1 ≠ e.1 := fun heq => h.1 (mem_map.mpr ⟨e', he', heq⟩)
    rw [Function.update_of_ne hne]
    exact hΛ e' he'

theorem Tree.nodup_labelsIn_itemCode (hc : t.children[k]? = some c) (hfun : c.kind = .function) :
    (labelsIn (t.itemCode k)).Nodup := by
  have hitem := item_itemLabels c (t.itemState_keeps k).2
  have hmem : c.text ∈ (t.itemState k).functions := by
    rw [(t.itemState_keeps k).1]
    exact mem_map.mpr ⟨c, mem_filter.mpr ⟨mem_of_getElem? hc, beq_iff_eq.mpr hfun⟩, rfl⟩
  rw [t.itemCode_of_getElem? hc, hitem.labels.nodup_iff, ownLabel, if_pos hfun, singleton_append,
    nodup_cons]
  exact ⟨fun hmade => notMem_of_mem_minted hmade hmem, nodup_minted ..⟩

/-- The stores of the arguments of a function, the last one first. -/
def Tree.argumentStores (t : Tree) (k n : Nat) : List Instr :=
  ((range n).map fun j => .store (t.slotAt [k, j + 1])).reverse

theorem labelsIn_argumentStores (t : Tree) (k n : Nat) : labelsIn (t.argumentStores k n) = [] := by
  refine labelsIn_of_straight fun i hi => ?_
  obtain ⟨j, -, rfl⟩ := mem_map.mp (mem_reverse.mp hi)
  rfl

section Function

variable (ht : FunctionIn N t k c)

include ht

theorem FunctionIn.typedFunction : ∃ Γ, TypedFunction N Γ c := by
  exact ⟨_, ((ht.reach ht.at_item).typedFunction ht.isFunction).2⟩

theorem FunctionIn.code_prologue :
    code (prologue c) (t.itemState k) = .label c.text :: t.argumentStores k
      (parametersOf c.children).length := by
  obtain ⟨Γ, hfunction⟩ := ht.typedFunction
  obtain ⟨hrole, hstate, -⟩ := Tree.at_item ht.child_eq
  have hslot (j : Nat) : t.slotAt [k, j + 1] = slotFrom [j + 1] .item c (t.itemState k) := by
    rw [slotAt, show [k, j + 1] = [k] ++ [j + 1] from rfl, slotFrom_append ht.at_item,
      ← hrole, ← hstate]
    rfl
  rw [Emit.code_prologue, hfunction.paramSlots_eq, argumentStores]
  simp [hslot]

variable (hb : c.children[b]? = some body) (hblock : body.kind = .block)

include hb hblock

theorem FunctionIn.itemCode_eq :
    t.itemCode k = .label c.text :: (t.argumentStores k (parametersOf c.children).length ++
      (code (statement body) (t.loweredAt [k, b]) ++
        if endsInRet (code (statement body) (t.loweredAt [k, b])) then []
          else [zeroInstr (.ofFirst c.children), .ret])) := by
  obtain ⟨Γ, hfunction⟩ := ht.typedFunction
  obtain ⟨-, -, hentered, -⟩ := ht.at_body hb hblock
  have hty : (after (opening c) (t.itemState k)).returnType = .ofFirst c.children := by
    rw [after_opening, hfunction.bodyOf?_eq hb hblock, Option.elim_some,
      (Steady.extend (x := statement body) _).returnType_eq,
      after_prologue, (extends_withParams _ _).returnType_eq]
    rfl
  have hends (before rest : List Instr) (h : endsInRet before = false) :
      endsInRet (before ++ rest) = endsInRet rest := by
    unfold endsInRet at h ⊢
    rw [getLast?_append]
    cases rest.getLast? <;> simp [h]
  rw [t.itemCode_of_function ht.child_eq ht.isFunction, code_function, hty, code_opening,
    hfunction.bodyOf?_eq hb hblock, Option.elim_some,
    endCode, hends _ _ (endsInRet_prologue _ _), if_neg hfunction.parts.2.1.1,
      ht.code_prologue, hentered]
  simp

/-- **The code of a function leads to the assertions at its places**, with some assertions at its
labels, if they fit together. -/
theorem FunctionIn.exists_labels {T : Tracking X} {a : Outline X} {A : X → Prop}
    (hentry : ∀ Λ i, T.Leads Λ i A (t.argumentStores k (parametersOf c.children).length)
      (a.ahead [k, b])) (hflows : ∀ p part u, partAt? ([k, b] ++ p) .program t = some (part, u) →
      a.Flows T ([k, b] ++ p) u)
    (hcomputes : ∀ p part u, partAt? ([k, b] ++ p) .program t = some (part, u) →
      part = .declarator ∨ part = .expression → a.Computes T ([k, b] ++ p) u
      (t.roleAt ([k, b] ++ p)) (t.loweredAt ([k, b] ++ p)) (t.codeAhead ([k, b] ++ p)).length
      (a.behind ([k, b] ++ p))) (hend :
      ∀ Λ i, T.Leads Λ i (a.behind [k, b]) [zeroInstr (.ofFirst c.children), .ret] fun _ => False) :
    ∃ Λ, T.Leads Λ (t.itemStart k) A (t.itemCode k) (fun _ => False) ∧
      ∀ p part u, partAt? ([k, b] ++ p) .program t = some (part, u) → ∃ before,
        t.codeAhead ([k, b] ++ p) = t.codeAhead [k] ++ before ∧
        T.Leads Λ (t.itemStart k) A before (a.ahead ([k, b] ++ p)) := by
  obtain ⟨hat, hrole, hstate, hahead⟩ := ht.at_body hb hblock
  obtain ⟨-, -, hstart⟩ := Tree.at_item ht.child_eq
  have hcode := ht.itemCode_eq hb hblock
  rw [ht.code_prologue] at hahead
  have hlen : (t.codeAhead [k, b]).length =
      t.itemStart k + (Instr.label c.text :: t.argumentStores k
          (parametersOf c.children).length).length := by
    rw [hahead, length_append, hstart]
  have hsound : a.Sound T [k, b] body .statement .statement (t.loweredAt [k, b])
      (t.codeAhead [k, b]).length := by
    refine ⟨fun p part u hp => hflows p part u ?_, fun p part u hp hplain => ?_⟩
    · rw [partAt?_append, hat]
      exact hp
    · have := hcomputes p part u (by rw [partAt?_append, hat]; exact hp) hplain
      rwa [roleAt_append hat, loweredAt_append hat, codeAhead_append hat, hrole,
        length_append] at this
  obtain ⟨ls, hls, hverified⟩ :=
    (ht.reach hat).verified (B := a.behind [k, b]) (E := a.behind [k, b])
    (.statement body) ⟨by decide, by decide⟩ (by decide) hsound (by rintro ⟨⟩) (fun _ => le_rfl)
  -- the label of the function and those of its body
  have hlabels : labelsIn (t.itemCode k) = ((c.text, A) :: ls).map Prod.fst := by
    rw [hcode, labelsIn_label, labelsIn_append, labelsIn_argumentStores, labelsIn_append,
      map_cons, hls, lower_statement]
    split
    · simp
    · cases Ty.ofFirst c.children <;> simp [labelsIn, zeroInstr, Instr.placed?]
  obtain ⟨Λ, hΛ⟩ :=
    exists_forall_label (hlabels ▸ nodup_labelsIn_itemCode ht.child_eq ht.isFunction)
  obtain ⟨hΛtext, hΛbody⟩ := forall_mem_cons.mp hΛ
  have hloops : (t.loweredAt [k, b]).loops = [] := by
    rw [hstate, after_prologue, (extends_withParams _ _).loops_eq]
    exact (t.itemState_keeps k).2
  have hruns := hverified Λ hΛbody (by rw [hloops]; rintro _ _ ⟨⟩) (by rintro _ ⟨⟩)
  rw [hlen] at hruns
  have hopening : T.Leads Λ (t.itemStart k) A
    (.label c.text :: t.argumentStores k (parametersOf c.children).length)
      (a.ahead [k, b]) := .cons (.label_of_eq le_rfl hΛtext) (hentry Λ _)
  refine ⟨Λ, ?_, fun p part u hp => ?_⟩
  · rw [hcode, ← cons_append]
    refine hopening.append ?_
    split
    · next hret =>
      rw [append_nil]
      exact hruns.whole.of_endsInRet hret
    · exact hruns.whole.append (hend Λ _)
  · rw [partAt?_append, hat] at hp
    refine ⟨_, ?_, hopening.append (hruns.places p part u hp)⟩
    rw [codeAhead_append hat, hahead, hrole, append_assoc]

end Function

/-! ## Programs -/

/-- Whether the item with number `k` is a function. -/
def Tree.IsFunctionAt (t : Tree) (k : Nat) : Prop :=
  ∃ c, t.children[k]? = some c ∧ c.kind = .function

/-- Assertions about the functions of a program, by their numbers: what is tracked of them, and what
is expected at their start, at their labels and at their places. -/
structure Assertions (t : Tree) (X : Type) where
  tracking : Nat → Tracking X
  entry : Nat → X → Prop
  label : Nat → String → X → Prop
  outline : Outline X
  leads : ∀ k, t.IsFunctionAt k →
    (tracking k).Leads (label k) (t.itemStart k) (entry k) (t.itemCode k) fun _ => False
  places : ∀ k p part u, t.IsFunctionAt k →
    partAt? (k :: p) .program t = some (part, u) → part.IsInner → part ≠ .parameter →
    ∃ before, t.codeAhead (k :: p) = t.codeAhead [k] ++ before ∧
      (tracking k).Leads (label k) (t.itemStart k) (entry k) before (outline.ahead (k :: p))
  expressions : ∀ k p u, t.IsFunctionAt k →
    partAt? (k :: p) .program t = some (.expression, u) →
    (tracking k).Leads (label k) (t.codeAhead (k :: p)).length (outline.ahead (k :: p))
      (code (Emit.lower (t.roleAt (k :: p)) u) (t.loweredAt (k :: p))) (outline.behind (k :: p))

theorem TypedFunction.exists_body (h : TypedFunction N Γ c) :
    ∃ (b : Nat) (body : Tree), c.children[b]? = some body ∧ body.kind = .block := by
  obtain ⟨-, -, body, _, -, hmem, -, hbody⟩ := h.parts
  obtain ⟨b, hb⟩ := mem_iff_getElem?.mp hmem
  obtain ⟨⟩ := hbody
  exact ⟨b, _, hb, rfl⟩

theorem TypedFunction.body_index (h : TypedFunction N Γ c) (hb : c.children[b]? = some body)
    (hblock : body.kind = .block) : b = (parametersOf c.children).length + 1 := by
  obtain ⟨f, loc, ty, ps, last, Γ', -, hty, hps, hlast⟩ := h
  have hk := kind_of_isValue hty
  have hlast' : last.kind = .block := by
    obtain ⟨⟩ := hlast
    rfl
  rw [parametersOf_function hk hps.kind_eq hlast']
  match b with
  | 0 =>
    cases hb
    exact absurd (hk.symm.trans hblock) nofun
  | b + 1 =>
    rw [getElem?_cons_succ] at hb
    rcases Nat.lt_or_ge b ps.length with hlt | hge
    · rw [getElem?_append_left hlt] at hb
      exact absurd ((hps.kind_eq _ (mem_of_getElem? hb)).symm.trans hblock) nofun
    · have := (List.getElem?_eq_some_iff.mp hb).1
      rw [length_append, length_singleton] at this
      omega

theorem TypedPart.isInner_reach {part' : Tree.Part} {u : Tree} {σ : Checker.State}
    (h : TypedPart N σ part t) (hinner : part.IsInner) (hparam : part ≠ .parameter)
    (hp : partAt? p part t = some (part', u)) : part'.IsInner ∧ part' ≠ .parameter := by
  induction p generalizing part t σ with
  | nil =>
    cases hp
    exact ⟨hinner, hparam⟩
  | cons i p ih =>
    obtain ⟨c, part₁, hc, hpart, hp⟩ := partAt?_cons hp
    obtain ⟨hprogram, hfunction⟩ := h.kind_ne hinner
    exact ih (h.step hc hpart) (part?_isInner hprogram hpart)
      (part?_ne_parameter hfunction hpart) hp

theorem TypedFunction.exists_place {u : Tree} (h : TypedFunction N Γ c)
    (hp : partAt? p .item c = some (part, u)) (hinner : part.IsInner) (hparam : part ≠ .parameter) :
    ∃ (b : Nat) (body : Tree) (p' : List Nat), p = b :: p' ∧ c.children[b]? = some body ∧
    body.kind = .block := by
  match p with
  | [] =>
    cases hp
    exact absurd rfl hinner.2
  | b :: p' =>
    obtain ⟨body, part₁, hb, hpart, hp⟩ := partAt?_cons hp
    obtain ⟨⟨rfl, hkind⟩ | ⟨-, hblock, -⟩, -⟩ := h.part_cases hb hpart
    · match p' with
      | [] =>
        cases hp
        exact absurd rfl hparam
      | j :: p'' =>
        obtain ⟨_, _, _, hpart', _⟩ := partAt?_cons hp
        rw [hkind] at hpart'
        cases hpart'
    · exact ⟨b, body, p', rfl, hb, hblock⟩

/-- **Assertions about programs are found from assertions at places that fit together.** -/
theorem TypedTree.exists_assertions (ht : TypedTree N t) {T : Nat → Tracking X}
    {a : Outline X} {A : Nat → X → Prop}
    (hentry : ∀ k c b body, FunctionIn N t k c → c.children[b]? = some body →
      body.kind = .block → ∀ Λ i,
        (T k).Leads Λ i (A k) (t.argumentStores k (parametersOf c.children).length)
        (a.ahead [k, b])) (hflows :
        ∀ k c p part u, FunctionIn N t k c → partAt? (k :: p) .program t = some (part, u) →
      part.IsInner → part ≠ .parameter → a.Flows (T k) (k :: p) u)
    (hcomputes : ∀ k c p part u, FunctionIn N t k c →
      partAt? (k :: p) .program t = some (part, u) → part = .declarator ∨ part = .expression →
      a.Computes (T k) (k :: p) u (t.roleAt (k :: p)) (t.loweredAt (k :: p))
      (t.codeAhead (k :: p)).length (a.behind (k :: p)))
    (hend : ∀ k c b body, FunctionIn N t k c → c.children[b]? = some body →
      body.kind = .block → ∀ Λ i,
        (T k).Leads Λ i (a.behind [k, b]) [zeroInstr (.ofFirst c.children), .ret] fun _ => False) :
    ∃ P : Assertions t X, P.tracking = T ∧ P.entry = A ∧ P.outline = a := by
  have hlabels (k : Nat) : ∃ Λ, t.IsFunctionAt k →
      (T k).Leads Λ (t.itemStart k) (A k) (t.itemCode k) (fun _ => False) ∧
      ∀ p part u, partAt? (k :: p) .program t = some (part, u) → part.IsInner → part ≠ .parameter →
        ∃ before, t.codeAhead (k :: p) = t.codeAhead [k] ++ before ∧
          (T k).Leads Λ (t.itemStart k) (A k) before (a.ahead (k :: p)) := by
    by_cases hex : t.IsFunctionAt k
    · obtain ⟨c, hc, hfun⟩ := hex
      have hf : FunctionIn N t k c := ⟨ht, hc, hfun⟩
      obtain ⟨Γ, hfunction⟩ := hf.typedFunction
      obtain ⟨b, body, hb, hblock⟩ := hfunction.exists_body
      have hinner {p : List Nat} {part : Tree.Part} {u : Tree}
          (hp : partAt? ([k, b] ++ p) .program t = some (part, u)) : part.IsInner ∧
              part ≠ .parameter := by
        obtain ⟨hat, -⟩ := hf.at_body hb hblock
        have hbody := ht.reach hat
        rw [partAt?_append, hat] at hp
        exact hbody.isInner_reach ⟨nofun, nofun⟩ nofun hp
      obtain ⟨Λ, hleads, hplaces⟩ := hf.exists_labels hb hblock (hentry k c b body hf hb hblock)
        (fun p part u hp => hflows k c (b :: p) part u hf hp (hinner hp).1 (hinner hp).2)
        (fun p part u hp => hcomputes k c (b :: p) part u hf hp) (hend k c b body hf hb hblock)
      refine ⟨Λ, fun _ => ⟨hleads, fun p part u hp hpart hparam => ?_⟩⟩
      rw [hf.partAt?_eq] at hp
      obtain ⟨b', body', p, rfl, hb', hblock'⟩ := hfunction.exists_place hp hpart hparam
      obtain rfl : b = b' :=
        (hfunction.body_index hb hblock).trans (hfunction.body_index hb' hblock').symm
      exact hplaces p part u ((hf.partAt?_eq _).trans hp)
    · exact ⟨fun _ _ => True, fun h => absurd h hex⟩
  choose Λ hΛ using hlabels
  refine ⟨⟨T, A, Λ, a, fun k h => (hΛ k h).1, fun k p part u h => (hΛ k h).2 p part u,
    fun k p u ⟨c, hc, hfun⟩ hp => ?_⟩, rfl, rfl, rfl⟩
  refine (((ht.reach hp).runs (ht.exists_code hp).1 (.inr rfl) fun q part u' hq hplain => ?_)
    (Λ k)).whole
  have := hcomputes k c (p ++ q) part u' ⟨ht, hc, hfun⟩
    (by rw [← cons_append, partAt?_append, hp]; exact hq) hplain
  rwa [← cons_append, roleAt_append hp, loweredAt_append hp, codeAhead_append hp,
    length_append] at this

/-! ## What holds at an index -/

namespace Assertions

variable (P : Assertions t X)

/-- What holds at an index of the code of the function with number `k`. -/
structure At (k i : Nat) (x : X) : Prop where
  isFunctionAt : t.IsFunctionAt k
  inItem : t.InItem k i
  stands : (P.tracking k).Stands (P.label k) (t.itemStart k) (P.entry k) (t.itemCode k)
    (i - t.itemStart k) x

variable {P} {i j : Nat} {x x' : X} {instr : Instr} {l : String}

theorem At.of_offset {d : Nat} (hf : t.IsFunctionAt k) (hd : d < (t.itemCode k).length)
    (h : (P.tracking k).Stands (P.label k) (t.itemStart k) (P.entry k) (t.itemCode k) d x) :
    P.At k (t.itemStart k + d) x := by
  refine ⟨hf, ⟨Nat.le_add_right _ _, ?_⟩, ?_⟩
  · rw [itemStart_succ]
    omega
  · rwa [Nat.add_sub_cancel_left]

theorem At.start (hc : t.children[k]? = some c) (hfun : c.kind = .function) (hx : P.entry k x) :
    P.At k (t.itemStart k) x := by
  obtain ⟨rest, hrest⟩ := exists_code_function c (t.itemState k)
  refine .of_offset (d := 0) ⟨c, hc, hfun⟩ ?_
    (.of_forall (P.leads k ⟨c, hc, hfun⟩) fun B hB => hB x hx)
  rw [t.itemCode_of_function hc hfun, hrest]
  exact Nat.succ_pos _

section Step

variable (h : P.At k i x)

include h

theorem At.exists_offset : ∃ d, i = t.itemStart k + d ∧ t.lower.code[i]? = (t.itemCode k)[d]? ∧
    (P.tracking k).Stands (P.label k) (t.itemStart k) (P.entry k) (t.itemCode k) d x := by
  obtain ⟨-, hin, hstands⟩ := h
  obtain ⟨d, rfl, -, hcode⟩ := hin.exists_offset
  rw [Nat.add_sub_cancel_left] at hstands
  exact ⟨d, rfl, hcode, hstands⟩

theorem At.onward (hi : t.lower.code[i]? = some instr) (hl : instr.placed? = none)
    (hinstr : ∀ B, B x → (P.tracking k).behind (P.label k) i B instr x')
    (hret : instr.isRet = false) :
    P.At k (i + 1) x' := by
  obtain ⟨d, rfl, hcode, hstands⟩ := h.exists_offset
  obtain ⟨c, hc, hfun⟩ := h.isFunctionAt
  have hin := inItem_succ hc hfun h.inItem hi hret
  have hnext := hstands.onward (P.leads k h.isFunctionAt) (hcode.symm.trans hi) hinstr hl
  obtain ⟨d', heq, hd', -⟩ := hin.exists_offset
  obtain rfl : d' = d + 1 := by omega
  exact .of_offset h.isFunctionAt hd' hnext

theorem At.label (hi : t.lower.code[i]? = some (.label l)) : P.At k (i + 1) x := by
  obtain ⟨d, rfl, hcode, hstands⟩ := h.exists_offset
  obtain ⟨c, hc, hfun⟩ := h.isFunctionAt
  have hin := inItem_succ hc hfun h.inItem hi rfl
  have hnext := hstands.label (P.leads k h.isFunctionAt) (hcode.symm.trans hi)
  obtain ⟨d', heq, hd', -⟩ := hin.exists_offset
  obtain rfl : d' = d + 1 := by omega
  exact .of_offset h.isFunctionAt hd' hnext

theorem At.of_target (hi : t.lower.code[i]? = some instr) (hl : instr.target? = some l)
    (hj : t.lower.labels.lookup l = some j) (hx' : P.label k l x') : P.At k j x' := by
  obtain ⟨d, rfl, hcode, hstands⟩ := h.exists_offset
  obtain ⟨hmade, k', j', hin, hinj, hj'⟩ := t.exists_label_of_jump hi hl
  obtain rfl : k = k' := h.inItem.unique hin
  obtain rfl : j = j' :=
    (t.existsUnique_label hmade).unique (Program.getElem?_of_lookup_labels hj) hj'
  obtain ⟨d', rfl, hd', hcode'⟩ := hinj.exists_offset
  exact .of_offset h.isFunctionAt hd' (.of_label hx' (hcode'.symm.trans hj'))

theorem At.jump (hi : t.lower.code[i]? = some (.jump l)) (hj : t.lower.labels.lookup l = some j) :
    P.At k j x := by
  obtain ⟨d, rfl, hcode, hstands⟩ := h.exists_offset
  exact h.of_target hi rfl hj (hstands.jump (P.leads k h.isFunctionAt) (hcode.symm.trans hi))

theorem At.jumpIfZero (hi : t.lower.code[i]? = some (.jumpIfZero l))
    (hj : t.lower.labels.lookup l = some j) (hacts : (P.tracking k).acts i (.jumpIfZero l) x x') :
    P.At k j x' := by
  obtain ⟨d, rfl, hcode, hstands⟩ := h.exists_offset
  exact h.of_target hi rfl hj
    (hstands.jumpIfZero (P.leads k h.isFunctionAt) (hcode.symm.trans hi) hacts)

theorem At.needs (hi : t.lower.code[i]? = some instr) (hl : instr.placed? = none)
    (ht : instr.target? = none) :
    (P.tracking k).needs instr x := by
  obtain ⟨d, rfl, hcode, hstands⟩ := h.exists_offset
  exact hstands.needs (P.leads k h.isFunctionAt) (hcode.symm.trans hi) hl ht

theorem At.of_leads {B : X → Prop} {before behind : List Instr}
    (hbefore : t.itemCode k = before ++ behind) (hlen : i = t.itemStart k + before.length)
    (hi : t.lower.code[i]? = some instr) (hl : instr.placed? = none)
    (hB : (P.tracking k).Leads (P.label k) (t.itemStart k) (P.entry k) before B) : B x := by
  obtain ⟨d, heq, hcode, hstands⟩ := h.exists_offset
  obtain rfl : d = before.length := by omega
  refine hstands.apply (hcode.symm.trans hi) hl ?_
  rwa [hbefore, take_left]

end Step

section

variable {u : Tree} {p : List Nat} (ht : TypedTree N t)

include ht

theorem exists_itemCode
    (hc : t.children[k]? = some c) (hp : partAt? (k :: p) .program t = some (part, u)) :
    ∃ before behind, t.codeAhead (k :: p) = t.codeAhead [k] ++ before ∧
      t.itemCode k = before ++ (code (Emit.lower (t.roleAt (k :: p)) u)
        (t.loweredAt (k :: p)) ++ behind) ∧
      ((t.roleAt (k :: p)).Wanted → Opens behind) := by
  have hat := partAt?_item ht.kind_eq hc
  obtain ⟨hrole, hstate, -⟩ := at_item hc
  rw [show k :: p = [k] ++ p from rfl] at hp ⊢
  rw [partAt?_append, hat] at hp
  obtain ⟨-, behind, hcode, hopens⟩ := (ht.reach hat).splits_reach (.item c) hp (t.itemState k)
  rw [codeAhead_append hat, roleAt_append hat, loweredAt_append hat, hrole, hstate]
  refine ⟨_, behind, rfl, (t.itemCode_of_getElem? hc).trans hcode, fun hw => ?_⟩
  exact (hopens hw).elim id fun h => h.2.elim

/-- **Where the code of a part begins, the assertion ahead of it holds**, unless a label is
there. -/
theorem At.ahead
    (hp : partAt? (k :: p) .program t = some (part, u)) (hinner : part.IsInner)
    (hparam : part ≠ .parameter) (h : P.At k (t.codeAhead (k :: p)).length x)
    (hi : t.lower.code[(t.codeAhead (k :: p)).length]? = some instr) (hl : instr.placed? = none) :
    P.outline.ahead (k :: p) x := by
  obtain ⟨c, hc, -⟩ := h.isFunctionAt
  obtain ⟨before, behind, hahead, hcode, -⟩ := exists_itemCode ht hc hp
  obtain ⟨before', hahead', hleads⟩ := P.places k p part u h.isFunctionAt hp hinner hparam
  obtain rfl : before = before' := append_cancel_left (hahead.symm.trans hahead')
  exact h.of_leads hcode (length_codeAhead hc hahead) hi hl hleads

theorem At.inside {B : X → Prop} {instrs rest : List Instr}
    (hp : partAt? (k :: p) .program t = some (part, u)) (hinner : part.IsInner)
    (hparam : part ≠ .parameter)
    (hcode : code (Emit.lower (t.roleAt (k :: p)) u) (t.loweredAt (k :: p)) =
      instrs ++ instr :: rest) (hl : instr.placed? = none)
    (hB : (P.tracking k).Leads (P.label k) (t.codeAhead (k :: p)).length
      (P.outline.ahead (k :: p)) instrs B) (h :
      P.At k ((t.codeAhead (k :: p)).length + instrs.length) x) : B x := by
  obtain ⟨c, hc, -⟩ := h.isFunctionAt
  obtain ⟨before, behind, hahead, hitem, -⟩ := exists_itemCode ht hc hp
  obtain ⟨before', hahead', hleads⟩ := P.places k p part u h.isFunctionAt hp hinner hparam
  obtain rfl : before = before' := append_cancel_left (hahead.symm.trans hahead')
  have hlen := length_codeAhead hc hahead
  rw [hlen] at hB h
  rw [hcode, append_assoc, ← append_assoc] at hitem
  rw [Nat.add_assoc, ← length_append] at h
  refine h.of_leads hitem rfl ?_ hl (hleads.append hB)
  rw [t.getElem?_lower, hitem, getElem?_append_right (Nat.le_refl _), Nat.sub_self]
  · rfl
  · rw [hitem]
    simp

/-- **Where the code of an expression ends, the assertion behind it holds**, if its value is
wanted. -/
theorem At.behind (hp : partAt? (k :: p) .program t = some (.expression, u))
    (hwanted : (t.roleAt (k :: p)).Wanted) (h : P.At k ((t.codeAhead (k :: p)).length +
      (code (Emit.lower (t.roleAt (k :: p)) u) (t.loweredAt (k :: p))).length) x) :
    P.outline.behind (k :: p) x := by
  obtain ⟨c, hc, -⟩ := h.isFunctionAt
  obtain ⟨before, behind, hahead, hcode, hopens⟩ := exists_itemCode ht hc hp
  obtain ⟨before', hahead', hleads⟩ :=
    P.places k p .expression u h.isFunctionAt hp ⟨nofun, nofun⟩ nofun
  obtain rfl : before = before' := append_cancel_left (hahead.symm.trans hahead')
  have hlen := length_codeAhead hc hahead
  have hexpr := P.expressions k p u h.isFunctionAt hp
  rw [hlen] at hexpr h
  obtain ⟨instr, rest, rfl, hl⟩ := hopens hwanted
  rw [← append_assoc] at hcode
  rw [Nat.add_assoc, ← length_append] at h
  refine h.of_leads hcode rfl ?_ hl (hleads.append hexpr)
  rw [t.getElem?_lower, hcode, getElem?_append_right (Nat.le_refl _), Nat.sub_self]
  · rfl
  · rw [hcode]
    simp

end

end Assertions

end Stacklet
