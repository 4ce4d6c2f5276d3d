import Mathlib.Order.Basic
import Stacklet.Proofs.Labels
/-!
# Assertions about code

Things are tracked of a running call. Assertions about them are put at labels, and code leads from
one assertion to another.

* `Tracking`: what instructions do to the things that are tracked, and what they need.
* `Tracking.Leads`: code leads from an assertion to another one, given the assertions at labels.
* `Tracking.Stands`: what holds at an index of code. `Stands.onward`, `Stands.jump`,
  `Stands.jumpIfZero`: it holds again where an instruction goes.
-/

namespace Stacklet

/-- What instructions do to the things that are tracked of a running call, by the index of the
instruction, and what they need. -/
structure Tracking (X : Type) where
  acts : Nat → Instr → X → X → Prop
  needs : Instr → X → Prop

namespace Tracking

variable {X : Type} (T : Tracking X) (Λ : String → X → Prop)

/-- What holds behind an instruction at the index `i` that has `A` ahead of it. -/
def behind (i : Nat) (A : X → Prop) : Instr → X → Prop
  | .label l => Λ l
  | .jump _ | .ret => fun _ => False
  | instr => fun x' => ∃ x, A x ∧ T.acts i instr x x'

/-- With `A` ahead of it, an instruction has what it needs, and goes to labels only with what is
expected there. -/
def Meets (i : Nat) (A : X → Prop) : Instr → Prop
  | .label l | .jump l => A ≤ Λ l
  | .jumpIfZero l => ∀ x x', A x → T.acts i (.jumpIfZero l) x x' → Λ l x'
  | instr => ∀ x, A x → T.needs instr x

/-- Code at the index `i` leads from `A` to `B`. -/
def Leads : (i : Nat) → (A : X → Prop) → List Instr → (B : X → Prop) → Prop
  | _, A, [], B => A ≤ B
  | i, A, instr :: cs, B => T.Meets Λ i A instr ∧ Leads (i + 1) (T.behind Λ i A instr) cs B

variable {T Λ} {i : Nat} {A A' B B' C : X → Prop} {cs cs' : List Instr} {instr : Instr} {l : String}

theorem behind_mono (h : A' ≤ A) (instr : Instr) :
    T.behind Λ i A' instr ≤ T.behind Λ i A instr := by
  intro x' hx'
  cases instr with
  | label | jump | ret => exact hx'
  | _ =>
    obtain ⟨x, hx, hacts⟩ := hx'
    exact ⟨x, h x hx, hacts⟩

theorem Meets.mono (hm : T.Meets Λ i A instr) (h : A' ≤ A) : T.Meets Λ i A' instr := by
  cases instr with
  | label | jump => exact le_trans h hm
  | jumpIfZero => exact fun x x' hx => hm x x' (h x hx)
  | _ => exact fun x hx => hm x (h x hx)

namespace Leads

theorem nil (h : A ≤ B) : T.Leads Λ i A [] B := h

theorem mono (hc : T.Leads Λ i A cs B) (hA : A' ≤ A) (hB : B ≤ B') : T.Leads Λ i A' cs B' := by
  induction cs generalizing i A A' with
  | nil => exact le_trans hA (le_trans hc hB)
  | cons instr cs ih =>
    obtain ⟨hm, hc⟩ := hc
    exact ⟨hm.mono hA, ih hc (behind_mono hA instr)⟩

theorem mono_left (hc : T.Leads Λ i A cs B) (hA : A' ≤ A) : T.Leads Λ i A' cs B := hc.mono hA le_rfl

theorem mono_right (hc : T.Leads Λ i A cs B) (hB : B ≤ B') : T.Leads Λ i A cs B' :=
  hc.mono le_rfl hB

theorem append_iff : T.Leads Λ i A (cs ++ cs') C ↔ ∃ B, T.Leads Λ i A cs B ∧
    T.Leads Λ (i + cs.length) B cs' C := by
  induction cs generalizing i A with
  | nil => exact ⟨fun h => ⟨A, le_rfl, h⟩, fun ⟨B, hA, hc'⟩ => hc'.mono_left hA⟩
  | cons instr cs ih =>
    have hlen : i + (instr :: cs).length = i + 1 + cs.length := by
      rw [List.length_cons]
      omega
    rw [hlen]
    constructor
    · rintro ⟨hm, hc⟩
      obtain ⟨B, hc, hc'⟩ := ih.mp hc
      exact ⟨B, ⟨hm, hc⟩, hc'⟩
    · rintro ⟨B, ⟨hm, hc⟩, hc'⟩
      exact ⟨hm, ih.mpr ⟨B, hc, hc'⟩⟩

theorem append (hc : T.Leads Λ i A cs B) (hc' : T.Leads Λ (i + cs.length) B cs' C) :
    T.Leads Λ i A (cs ++ cs') C :=
  append_iff.mpr ⟨B, hc, hc'⟩

theorem cons (hinstr : T.Leads Λ i A [instr] B) (hc : T.Leads Λ (i + 1) B cs C) :
    T.Leads Λ i A (instr :: cs) C :=
  hinstr.append hc

theorem label (h : A ≤ Λ l) : T.Leads Λ i A [.label l] (Λ l) := ⟨h, le_rfl⟩

theorem jump (h : A ≤ Λ l) : T.Leads Λ i A [.jump l] B := ⟨h, fun _ => False.elim⟩

theorem ret (h : ∀ x, A x → T.needs .ret x) : T.Leads Λ i A [.ret] B := ⟨h, fun _ => False.elim⟩

theorem jumpIfZero (h : ∀ x x', A x → T.acts i (.jumpIfZero l) x x' → B x' ∧ Λ l x') :
    T.Leads Λ i A [.jumpIfZero l] B := by
  refine ⟨fun x x' hx hacts => (h x x' hx hacts).2, ?_⟩
  rintro x' ⟨x, hx, hacts⟩
  exact (h x x' hx hacts).1

theorem straight (hstraight : instr.isStraight) (hneeds : ∀ x, A x → T.needs instr x)
    (hacts : ∀ x x', A x → T.acts i instr x x' → B x') : T.Leads Λ i A [instr] B := by
  have hbehind : T.behind Λ i A instr ≤ B := by
    intro x' hx'
    cases instr with
    | label | jump | jumpIfZero | ret => cases hstraight
    | _ =>
      obtain ⟨x, hx, hx'⟩ := hx'
      exact hacts x x' hx hx'
  refine ⟨?_, hbehind⟩
  cases instr with
  | label | jump | jumpIfZero | ret => cases hstraight
  | _ => exact hneeds

theorem of_straight (hstraight : ∀ instr ∈ cs, instr.isStraight)
    (hneeds : ∀ instr ∈ cs, ∀ x, A x → T.needs instr x)
    (hacts : ∀ instr ∈ cs, ∀ i x x', A x → T.acts i instr x x' → A x') : T.Leads Λ i A cs A := by
  induction cs generalizing i with
  | nil => exact le_rfl
  | cons instr cs ih =>
    obtain ⟨hfirst, hstraight⟩ := List.forall_mem_cons.mp hstraight
    obtain ⟨hneeded, hneeds⟩ := List.forall_mem_cons.mp hneeds
    obtain ⟨hact, hacts⟩ := List.forall_mem_cons.mp hacts
    exact .cons (.straight hfirst hneeded (hact i)) (ih hstraight hneeds hacts)

theorem of_needs {T' : Tracking X} (hc : T.Leads Λ i A cs B) (hacts : T'.acts = T.acts)
    (hneeds : ∀ instr x, T.needs instr x → T'.needs instr x) : T'.Leads Λ i A cs B := by
  induction cs generalizing i A with
  | nil => exact hc
  | cons instr cs ih =>
    obtain ⟨hm, hc⟩ := hc
    have hbehind : T'.behind Λ i A instr = T.behind Λ i A instr := by
      unfold behind
      rw [hacts]
    refine ⟨?_, ih (hbehind ▸ hc)⟩
    cases instr with
    | label | jump => exact hm
    | jumpIfZero =>
      rw [Meets, hacts]
      exact hm
    | _ => exact fun x hx => hneeds _ x (hm x hx)

end Leads

/-! ## Assertions at indices -/

variable (T Λ) in
/-- What holds at an index of code that begins at `i` with `A`: at labels what is expected there,
and else all that the code before leads to. -/
def Stands (i : Nat) (A : X → Prop) (cs : List Instr) (j : Nat) (x : X) : Prop :=
  match cs[j]? with
  | some (.label l) => Λ l x
  | _ => ∀ B, T.Leads Λ i A (cs.take j) B → B x

section Stands

variable {j j' : Nat} {x x' : X}

theorem Leads.exists_split (hc : T.Leads Λ i A cs C) (hj : cs[j]? = some instr) :
    ∃ B, T.Leads Λ i A (cs.take j) B ∧ T.Meets Λ (i + j) B instr := by
  obtain ⟨hlt, hget⟩ := List.getElem?_eq_some_iff.mp hj
  have hlen : (cs.take j).length = j := List.length_take_of_le (Nat.le_of_lt hlt)
  rw [← List.take_append_drop j cs, List.drop_eq_getElem_cons hlt, hget] at hc
  obtain ⟨B, hbefore, hmeets, -⟩ := append_iff.mp hc
  exact ⟨B, hbefore, hlen ▸ hmeets⟩

theorem Stands.of_forall (hc : T.Leads Λ i A cs C) (h : ∀ B, T.Leads Λ i A (cs.take j) B → B x) :
    T.Stands Λ i A cs j x := by
  unfold Stands
  split
  · next l hl =>
    obtain ⟨B, hbefore, hmeets⟩ := hc.exists_split hl
    exact hmeets x (h B hbefore)
  · exact h

theorem Stands.apply (h : T.Stands Λ i A cs j x) (hj : cs[j]? = some instr)
    (hl : instr.placed? = none) (hB : T.Leads Λ i A (cs.take j) B) : B x := by
  unfold Stands at h
  rw [hj] at h
  cases instr with
  | label => cases hl
  | _ => exact h B hB

theorem Stands.of_label (h : Λ l x) (hj : cs[j]? = some (.label l)) : T.Stands Λ i A cs j x := by
  unfold Stands
  rwa [hj]

theorem Stands.succ (hc : T.Leads Λ i A cs C) (hj : cs[j]? = some instr)
    (h : ∀ B, T.Leads Λ i A (cs.take j) B → T.behind Λ (i + j) B instr x') :
    T.Stands Λ i A cs (j + 1) x' := by
  refine .of_forall hc fun B hB => ?_
  have htake : cs.take (j + 1) = cs.take j ++ [instr] := by rw [List.take_add_one, hj]; rfl
  have hlen : (cs.take j).length = j :=
    List.length_take_of_le (Nat.le_of_lt (List.getElem?_eq_some_iff.mp hj).1)
  rw [htake] at hB
  obtain ⟨B₀, hbefore, -, hle⟩ := Leads.append_iff.mp hB
  rw [hlen] at hle
  exact hle x' (h B₀ hbefore)

section

variable (h : T.Stands Λ i A cs j x) (hc : T.Leads Λ i A cs C)

include h hc

/-- **What holds at an instruction that goes on holds behind it.** -/
theorem Stands.onward (hj : cs[j]? = some instr)
    (hinstr : ∀ B, B x → T.behind Λ (i + j) B instr x') (hl : instr.placed? = none) :
    T.Stands Λ i A cs (j + 1) x' :=
  .succ hc hj fun B hB => hinstr B (h.apply hj hl hB)

theorem Stands.label (hj : cs[j]? = some (.label l)) : T.Stands Λ i A cs (j + 1) x := by
  unfold Stands at h
  rw [hj] at h
  exact .succ hc hj fun _ _ => h

/-- **What holds at a jump is what is expected at its label.** -/
theorem Stands.jump (hj : cs[j]? = some (.jump l)) : Λ l x := by
  obtain ⟨B, hbefore, hmeets⟩ := hc.exists_split hj
  exact hmeets x (h.apply hj rfl hbefore)

theorem Stands.jumpIfZero (hj : cs[j]? = some (.jumpIfZero l))
    (hacts : T.acts (i + j) (.jumpIfZero l) x x') : Λ l x' := by
  obtain ⟨B, hbefore, hmeets⟩ := hc.exists_split hj
  exact hmeets x x' (h.apply hj rfl hbefore) hacts

theorem Stands.needs (hj : cs[j]? = some instr)
    (hl : instr.placed? = none) (ht : instr.target? = none) : T.needs instr x := by
  obtain ⟨B, hbefore, hmeets⟩ := hc.exists_split hj
  have hB := h.apply hj hl hbefore
  cases instr with
  | label => cases hl
  | jump | jumpIfZero => cases ht
  | _ => exact hmeets x hB

end

end Stands

end Tracking

end Stacklet
