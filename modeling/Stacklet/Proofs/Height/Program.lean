import Stacklet.Proofs.Evaluation
import Stacklet.Proofs.Height
import Stacklet.Proofs.Height.Boundary
import Stacklet.Proofs.Typing.Soundness
/-!
# Stack heights of programs

* `heightIn`: the height at each instruction of code, found from the code alone.
* `Tree.arity`, `Tree.height`: the numbers of parameters of the functions of a program, and the
  heights of its instructions.
* `heights_lower`: for typed programs without an index of a call that has no value these are heights
  in the sense of the machine.
* `compile_stack_heights`: what that means for the runs of accepted sources.
-/

namespace Stacklet

open Stacklet.Tree List

variable {instr : Instr} {i k n : Nat} {f l : String} {c : Tree}

/-! ## Heights in code -/

section HeightIn

variable (arity : String → Option Nat)

/-- The height at an index of code. -/
def heightIn (instrs : List Instr) (i : Nat) : Nat :=
  match heightBehind? arity 0 (instrs.take i) with
  | some h => (instrs[i]?.map (Instr.heightAt arity h)).getD h
  | none => 0

variable {arity} {instrs : List Instr} {i : Nat} {instr : Instr} {h : Nat}

theorem heightIn_of_rises (hr : Rises arity 0 (instrs.take i) h) :
    heightIn arity instrs i = (instrs[i]?.map (Instr.heightAt arity h)).getD h := by
  unfold heightIn
  rw [hr]

theorem exists_heightBehind (hr : Rises arity 0 instrs h) (hi : instrs[i]? = some instr) :
    ∃ h', instr.heightBehind? arity (heightIn arity instrs i) = some h' ∧
    Rises arity 0 (instrs.take (i + 1)) h' := by
  have htake : instrs.take (i + 1) = instrs.take i ++ [instr] := by rw [take_add_one, hi]; rfl
  rw [← take_append_drop (i + 1) instrs] at hr
  obtain ⟨h', hto, -⟩ := hr.exists_of_append
  obtain ⟨h₀, hbefore, hone⟩ := (htake ▸ hto).exists_of_append
  refine ⟨h', ?_, hto⟩
  rw [heightIn_of_rises hbefore, hi]
  obtain ⟨h₁, hbehind, hend⟩ := Option.bind_eq_some_iff.mp hone
  exact hbehind.trans hend

theorem heightIn_label (hr : Rises arity 0 instrs h) (hi : instrs[i]? = some (.label f))
    (hn : arity f = some n) : heightIn arity instrs i = n := by
  rw [← take_append_drop i instrs] at hr
  obtain ⟨h₀, hbefore, -⟩ := hr.exists_of_append
  rw [heightIn_of_rises hbefore, hi]
  simp [Instr.heightAt, hn]

theorem heightBehind?_goesOn {h' : Nat} (ho : instr.goesOn)
    (hb : instr.heightBehind? arity h = some h') :
    instr.takes ≤ h ∧ h' = h - instr.takes + instr.gives := by
  have onward (hb : instr.heightOnward? h = some h') : instr.takes ≤ h ∧
      h' = h - instr.takes + instr.gives := by
    rw [Instr.heightOnward?, Option.ite_none_right_eq_some] at hb
    exact ⟨hb.1, (Option.some.inj hb.2).symm⟩
  cases instr with
  | jump | ret => cases ho
  | call f => exact onward ((if_pos ho).symm.trans hb)
  | label l =>
    rw [Instr.heightBehind?, Option.ite_none_right_eq_some] at hb
    exact ⟨Nat.zero_le h, (Option.some.inj hb.2).symm⟩
  | jumpIfZero l =>
    rw [Instr.heightBehind?, Option.ite_none_right_eq_some] at hb
    obtain ⟨rfl, hb⟩ := hb
    exact ⟨Nat.le_refl 1, (Option.some.inj hb).symm⟩
  | _ => exact onward hb

theorem heightBehind?_target {h' : Nat} (hl : instr.target? = some l)
    (hb : instr.heightBehind? arity h = some h') : h = instr.takes := by
  cases instr with
  | jump | jumpIfZero =>
    rw [Instr.heightBehind?, Option.ite_none_right_eq_some] at hb
    exact hb.1
  | _ => cases hl

end HeightIn

/-! ## Functions -/

namespace Emit

theorem exists_code_function (t : Tree) (s : State) :
    ∃ rest, code (function t) s = .label t.text :: rest := by
  rw [code_function, code_opening, code_prologue]
  exact ⟨_, rfl⟩

theorem endsInRet_function (t : Tree) (s : State) : endsInRet (code (function t) s) := by
  rw [code_function]
  unfold endCode
  by_cases hret : endsInRet (code (opening t) s)
  · simp [hret]
  · rw [if_neg hret]
    split
    · exact endsInRet_concat _ _
    · rw [← singleton_append, ← append_assoc]
      exact endsInRet_concat _ _

end Emit

namespace Tree

variable {t : Tree}

/-- The number of parameters of the function of a name. -/
def arity (t : Tree) (f : String) : Option Nat :=
  (t.function? f).map fun c => (parametersOf c.children).length

/-- The height of the stack at an instruction of a program, without what the calls around have on
it. -/
def height (t : Tree) (i : Nat) : Nat := heightIn t.arity t.lower.code.toList i

/-- Whether an index is one of the code of a function. -/
def InFunction (t : Tree) (i : Nat) : Prop :=
  ∃ k c, t.children[k]? = some c ∧ c.kind = .function ∧ t.InItem k i

theorem arity_eq_none (h : l ∉ t.functions.map text) : t.arity l = none := by
  have hnone : t.function? l = none := by
    rw [function?, find?_eq_none]
    intro c hc heq
    exact h (mem_map.mpr ⟨c, hc, beq_iff_eq.mp heq⟩)
  rw [arity, hnone]
  rfl

theorem arity_of_mem_minted (h : l ∈ t.minted) : t.arity l = none :=
  arity_eq_none (Emit.notMem_of_mem_minted h)

theorem InItem.exists_offset (h : t.InItem k i) :
    ∃ d, i = t.itemStart k + d ∧ d < (t.itemCode k).length ∧
      t.lower.code[i]? = (t.itemCode k)[d]? := by
  obtain ⟨d, rfl⟩ := Nat.exists_eq_add_of_le h.1
  have hd : d < (t.itemCode k).length := by
    have := h.2
    rw [itemStart_succ] at this
    omega
  exact ⟨d, rfl, hd, t.getElem?_lower hd⟩

theorem itemStart_le {k' : Nat} (h : k ≤ k') : t.itemStart k ≤ t.itemStart k' := by
  induction h with
  | refl => exact Nat.le_refl _
  | step _ ih =>
    rw [itemStart_succ]
    omega

theorem InItem.unique {k' : Nat} (h : t.InItem k i) (h' : t.InItem k' i) : k = k' := by
  have hle {a b : Nat} (ha : t.InItem a i) (hb : t.InItem b i) : ¬ a < b := by
    intro hlt
    have hstart : t.itemStart (a + 1) ≤ t.itemStart b := itemStart_le hlt
    have := ha.2
    have := hb.1
    omega
  have := hle h h'
  have := hle h' h
  omega

theorem label_cases (hk : t.children[k]? = some c) (hi : t.InItem k i)
    (hl : t.lower.code[i]? = some (.label l)) :
    l ∈ t.minted ∨ c.kind = .function ∧ i = t.itemStart k ∧ l = c.text := by
  obtain ⟨d, rfl, -, hcode⟩ := hi.exists_offset
  have hitem := Emit.item_itemLabels c (t.itemState_keeps k).2
  rw [hcode, t.itemCode_of_getElem? hk] at hl
  have made (hm : l ∈ (t.itemState k).mintedTo (Emit.after (Emit.item c) (t.itemState k))) :
      l ∈ t.minted :=
    t.mem_minted_of_item (t.itemState_succ hk ▸ hm)
  by_cases hc : c.kind = .function
  · obtain ⟨rest, hrest⟩ := Emit.exists_code_function c (t.itemState k)
    have hfun := Emit.item_of_function hc
    have hown : Emit.ownLabel c = [c.text] := if_pos hc
    rw [hfun, hrest] at hl
    cases d with
    | zero => exact .inr ⟨hc, rfl, (Instr.label.inj (Option.some.inj hl)).symm⟩
    | succ d =>
      have hperm := hitem.labels
      rw [hown, hfun, hrest, Emit.labelsIn_label, singleton_append, perm_cons] at hperm
      exact .inl (made (hfun ▸ hperm.mem_iff.mp (Emit.mem_labelsIn.mpr ⟨d, hl⟩)))
  · have hown : Emit.ownLabel c = [] := if_neg hc
    have hperm := hitem.labels
    rw [hown, nil_append] at hperm
    exact .inl (made (hperm.mem_iff.mp (Emit.mem_labelsIn.mpr ⟨d, hl⟩)))

theorem exists_label_cases (hl : t.lower.code[i]? = some (.label l)) :
    ∃ k c, t.children[k]? = some c ∧ t.InItem k i ∧
      (l ∈ t.minted ∨ c.kind = .function ∧ i = t.itemStart k ∧ l = c.text) := by
  obtain ⟨hlt, -⟩ := Array.getElem?_eq_some_iff.mp hl
  obtain ⟨k, hk, hin⟩ := t.exists_inItem hlt
  have hc : t.children[k]? = some t.children[k] := getElem?_eq_getElem hk
  exact ⟨k, _, hc, hin, label_cases hc hin hl⟩

theorem inItem_succ (hk : t.children[k]? = some c) (hc : c.kind = .function)
    (hi : t.InItem k i) (hinstr : t.lower.code[i]? = some instr) (hret : instr.isRet = false) :
    t.InItem k (i + 1) := by
  obtain ⟨d, rfl, hd, hcode⟩ := hi.exists_offset
  refine ⟨Nat.le_succ_of_le hi.1, ?_⟩
  rw [itemStart_succ]
  by_cases hlast : d + 1 < (t.itemCode k).length
  · omega
  · exfalso
    have hends := Emit.endsInRet_function c (t.itemState k)
    rw [← t.itemCode_of_function hk hc, Emit.endsInRet, getLast?_eq_getElem?,
      show (t.itemCode k).length - 1 = d by omega, ← hcode, hinstr] at hends
    exact Bool.false_ne_true (hret.symm.trans hends)

theorem mem_functions_of_function? (h : t.function? f = some c) :
    c ∈ t.functions ∧ c.text = f := ⟨mem_of_find?_eq_some h, by simpa using find?_some h⟩

theorem getElem?_itemStart (hk : t.children[k]? = some c) (hc : c.kind = .function) :
    t.lower.code[t.itemStart k]? = some (.label c.text) := by
  obtain ⟨rest, hrest⟩ := Emit.exists_code_function c (t.itemState k)
  have hcode : t.itemCode k = .label c.text :: rest := by
    rw [t.itemCode_of_function hk hc, hrest]
  have hget := t.getElem?_lower (k := k) (i := 0) (by rw [hcode]; exact Nat.succ_pos _)
  rwa [hcode, Nat.add_zero] at hget

theorem exists_label_of_arity (h : t.arity f = some n) :
    ∃ j : Nat, t.lower.code[j]? = some (.label f) := by
  obtain ⟨c, hc, -⟩ := Option.map_eq_some_iff.mp h
  obtain ⟨hmem, rfl⟩ := mem_functions_of_function? hc
  obtain ⟨hchild, hfun⟩ := mem_filter.mp hmem
  obtain ⟨k, hk⟩ := mem_iff_getElem?.mp hchild
  exact ⟨_, getElem?_itemStart hk (beq_iff_eq.mp hfun)⟩

/-! ## Typed programs -/

variable {N : String → Prop}

theorem function?_text (ht : TypedProgram N t) (hc : c ∈ t.functions) :
    t.function? c.text = some c := by
  obtain ⟨Γ, hdeclares, -⟩ := ht
  exact (hdeclares.lookup?_eq.1 c hc).2

theorem arity_text (ht : TypedProgram N t) (hk : t.children[k]? = some c)
    (hc : c.kind = .function) : t.arity c.text = some (parametersOf c.children).length := by
  rw [arity, function?_text ht (mem_filter.mpr ⟨mem_of_getElem? hk, beq_iff_eq.mpr hc⟩)]
  rfl

theorem ready_start {Γ : Scopes} (hdeclares : DeclaresFunctions [Scopes.builtins] t.functions Γ)
    (hitems : TypedItems N Γ t.children) : Emit.Ready t.arity t.start Γ ∧ Γ.FunctionsOnly := by
  obtain ⟨hnew, hlookup⟩ := hdeclares.lookup?_eq
  have hlookup' (x : String) : Γ.lookup? x =
    ((t.function? x).map fun c => .ofChildren c.children).or
      ((Builtin.ofName? x).map Entry.ofBuiltin) := by
    rw [← Scopes.lookup_builtins]
    exact hlookup x
  have htyped {f : String} {c : Tree} (hf : t.function? f = some c) :
      ∃ Γ', TypedFunction N Γ' c := by
    obtain ⟨hmem, hk⟩ := mem_filter.mp (mem_functions_of_function? hf).1
    exact hitems.exists_typedFunction c hmem (beq_iff_eq.mp hk)
  have hfree {f : String} {c : Tree} (hf : t.function? f = some c) : Builtin.ofName? f = none := by
    obtain ⟨hmem, rfl⟩ := mem_functions_of_function? hf
    simpa [Scopes.lookup_builtins] using (hnew c hmem).1
  refine ⟨⟨?_, ?_, ?_, fun l hl => arity_eq_none hl⟩, fun x e hx => ?_⟩
  · intro x e hx
    rw [hlookup'] at hx
    cases hf : t.function? x with
    | some c =>
      rw [hf] at hx
      obtain ⟨Γ', hc⟩ := htyped hf
      cases hx
      exact hc.entry_known
    | none =>
      rw [hf, Option.map_none, Option.none_or, Option.map_eq_some_iff] at hx
      obtain ⟨b, -, rfl⟩ := hx
      exact Entry.ofBuiltin_known b
  · intro f b ty params hx hb
    cases hf : t.function? f with
    | some c => exact absurd ((hfree hf).symm.trans hb) (Option.some_ne_none b).symm
    | none =>
      rw [hlookup', hf, hb] at hx
      cases hx
      exact ⟨rfl, length_map _⟩
  · intro f ty params hx hb
    rw [hlookup', hb, Option.map_none, Option.or_none, Option.map_eq_some_iff] at hx
    obtain ⟨c, hc, hentry⟩ := hx
    obtain ⟨hmem, rfl⟩ := mem_functions_of_function? hc
    obtain ⟨Γ', hfun⟩ := htyped hc
    have hty := hfun.parts.2.1
    cases hentry
    refine ⟨?_, ?_, hty.1⟩
    · rw [arity, hc, length_map]
      rfl
    · exact mem_map.mpr ⟨c, mem_filter.mpr ⟨hmem, by simpa using hty.1⟩, rfl⟩
  · rw [hlookup', Option.or_eq_some_iff, Option.map_eq_some_iff, Option.map_eq_some_iff] at hx
    rcases hx with ⟨c, -, rfl⟩ | ⟨-, b, -, rfl⟩
    · exact ⟨_, _, rfl⟩
    · exact ⟨_, _, rfl⟩

theorem exists_ready (ht : TypedProgram N t) :
    ∃ Γ, TypedItems N Γ t.children ∧ Emit.Ready t.arity t.start Γ ∧ Γ.FunctionsOnly := by
  obtain ⟨Γ, hdeclares, hitems⟩ := ht
  exact ⟨Γ, hitems, ready_start hdeclares hitems⟩

/-- **The code of a typed program** has heights. -/
theorem rises_lower (ht : TypedProgram N t) (hall : t.all indexesValue) :
    Rises t.arity 0 t.lower.code.toList 0 := by
  obtain ⟨Γ, hitems, hready, -⟩ := exists_ready ht
  refine hitems.rises (fun c hc hk => ?_) (fun c hc => all_of_mem hall hc) hready
  obtain ⟨k, hk'⟩ := mem_iff_getElem?.mp hc
  exact arity_text ht hk' hk

theorem height_of_rises {h : Nat} (hk : t.children[k]? = some c) (hin : t.InItem k i)
    (hi : t.itemStart k < i) (hr : Rises t.arity 0 (t.lower.code.toList.take i) h) :
    t.height i = h := by
  rw [height, heightIn_of_rises hr, Array.getElem?_toList]
  cases hinstr : t.lower.code[i]? with
  | none => rfl
  | some instr =>
    cases instr with
    | label l =>
      rcases label_cases hk hin hinstr with hl | ⟨-, rfl, -⟩
      · simp [Instr.heightAt, arity_of_mem_minted hl]
      · exact absurd hi (Nat.lt_irrefl _)
    | _ => rfl

theorem exists_ready_function (ht : TypedProgram N t) (hk : t.children[k]? = some c)
    (hc : c.kind = .function) :
    ∃ Γ, TypedFunction N Γ c ∧ Emit.Ready t.arity (t.itemState k) Γ ∧
      ((∀ c ∈ t.children, c.kind = .function) → Γ.FunctionsOnly) := by
  obtain ⟨Γ, hitems, hready, hΓ⟩ := exists_ready ht
  obtain ⟨Γ', hfun, hready', heq⟩ := hitems.exists_ready hready hk hc
  exact ⟨Γ', hfun, hready', fun hall => heq hall ▸ hΓ⟩

/-- The index at which the code of the body of a function begins. -/
def bodyStart (t : Tree) (k : Nat) (c : Tree) : Nat :=
  t.itemStart k + (Emit.code (Emit.prologue c) (t.itemState k)).length

theorem exists_toList_body {body : Tree} (hk : t.children[k]? = some c) (hc : c.kind = .function)
    (hbody : bodyOf? c.children = some body) :
    ∃ ahead tail, t.lower.code.toList = ahead ++ Emit.code (Emit.prologue c) (t.itemState k) ++
      (Emit.code (Emit.statement body) (Emit.after (Emit.prologue c) (t.itemState k)) ++ tail) ∧
      ahead.length = t.itemStart k := by
  obtain ⟨ahead, behind, hlower, hlen⟩ := t.exists_toList_lower k
  rw [t.itemCode_of_function hk hc, Emit.code_function, Emit.code_opening, hbody,
    Option.elim_some] at hlower
  simp only [append_assoc] at hlower ⊢
  exact ⟨ahead, _, hlower, hlen⟩

section Heights

variable (ht : TypedProgram N t) (hall : t.all indexesValue)

include ht hall

theorem height_succ {h : Nat} (hk : t.children[k]? = some c) (hc : c.kind = .function)
    (hin : t.InItem k i) (hinstr : t.lower.code[i]? = some instr) (hret : instr.isRet = false)
    (hb : instr.heightBehind? t.arity (t.height i) = some h) :
    t.InItem k (i + 1) ∧ t.height (i + 1) = h := by
  have hin' := inItem_succ hk hc hin hinstr hret
  rw [← Array.getElem?_toList] at hinstr
  obtain ⟨h', hb', hr⟩ := exists_heightBehind (rises_lower ht hall) hinstr
  obtain rfl : h = h' := Option.some.inj (hb.symm.trans hb')
  exact ⟨hin', height_of_rises hk hin' (Nat.lt_succ_of_le hin.1) hr⟩

theorem exists_heightBehind_lower (hinstr : t.lower.code[i]? = some instr) :
    ∃ h, instr.heightBehind? t.arity (t.height i) = some h := by
  rw [← Array.getElem?_toList] at hinstr
  obtain ⟨h, hb, -⟩ := exists_heightBehind (rises_lower ht hall) hinstr
  exact ⟨h, hb⟩

theorem height_entry (hi : t.lower.code[i]? = some (.label f)) (hn : t.arity f = some n) :
    t.InFunction i ∧ t.height i = n := by
  refine ⟨?_, ?_⟩
  · obtain ⟨k, c, hc, hin, hl | ⟨hfun, -, -⟩⟩ := exists_label_cases hi
    · exact absurd ((arity_of_mem_minted hl).symm.trans hn) (Option.some_ne_none n).symm
    · exact ⟨k, _, hc, hfun, hin⟩
  · rw [← Array.getElem?_toList] at hi
    exact heightIn_label (rises_lower ht hall) hi hn

theorem height_of_mem_minted {j : Nat} (hj : t.lower.code[j]? = some (.label l))
    (hl : l ∈ t.minted) :
    t.height j = 0 := by
  obtain ⟨h, hb⟩ := exists_heightBehind_lower ht hall hj
  rw [Instr.heightBehind?, Option.ite_none_right_eq_some, arity_of_mem_minted hl] at hb
  rcases hb.1 with hsome | hzero
  · cases hsome
  · exact hzero

/-- **The heights of a typed program** are heights of the machine. -/
theorem heights_lower (entry : String) (limit : Nat) :
    Machine.Heights (Machine.load t.lower entry limit) t.arity t.InFunction t.height where
  exists_instr i hi := by
    obtain ⟨k, c, -, -, hin⟩ := hi
    obtain ⟨d, -, hd, hcode⟩ := hin.exists_offset
    exact ⟨(t.itemCode k)[d], hcode.trans (getElem?_eq_getElem hd)⟩
  goesOn i instr hi hinstr hon := by
    obtain ⟨k, c, hk, hc, hin⟩ := hi
    obtain ⟨h, hb⟩ := exists_heightBehind_lower ht hall hinstr
    obtain ⟨hle, rfl⟩ := heightBehind?_goesOn hon hb
    have hret : instr.isRet = false := by
      cases instr with
      | ret => cases hon
      | _ => rfl
    obtain ⟨hin', heq⟩ := height_succ ht hall hk hc hin hinstr hret hb
    exact ⟨hle, ⟨k, c, hk, hc, hin'⟩, heq⟩
  jump i instr l hi hinstr hl := by
    obtain ⟨k, c, hk, hc, hin⟩ := hi
    obtain ⟨h, hb⟩ := exists_heightBehind_lower ht hall hinstr
    obtain ⟨hmade, k', j, hin', hinj, hj⟩ := t.exists_label_of_jump hinstr hl
    obtain rfl : k = k' := hin.unique hin'
    have hto := Program.lookup_labels_of_unique hj fun j' hj' =>
      (t.existsUnique_label hmade).unique hj' hj
    exact ⟨j, hto, ⟨k, c, hk, hc, hinj⟩, heightBehind?_target hl hb,
      height_of_mem_minted ht hall hj hmade⟩
  call i f hi hinstr hf := by
    obtain ⟨k, c, hk, hc, hin⟩ := hi
    obtain ⟨h, hb⟩ := exists_heightBehind_lower ht hall hinstr
    obtain ⟨hin', heq⟩ := height_succ ht hall hk hc hin hinstr rfl hb
    have hbind : (t.arity f).bind (fun n => if n ≤ t.height i then some (t.height i - n + 1)
        else none) = some h := by
      simpa [Instr.heightBehind?, hf] using hb
    obtain ⟨n, hn, hn'⟩ := Option.bind_eq_some_iff.mp hbind
    rw [Option.ite_none_right_eq_some] at hn'
    obtain ⟨hle, rfl⟩ : n ≤ t.height i ∧ t.height i - n + 1 = h := ⟨hn'.1, Option.some.inj hn'.2⟩
    obtain ⟨j, hj⟩ := Program.exists_lookup_labels (exists_label_of_arity hn).choose_spec
    obtain ⟨hregion, hheight⟩ := height_entry ht hall (Program.getElem?_of_lookup_labels hj) hn
    exact ⟨n, j, hn, hj, hregion, hheight, hle, ⟨k, c, hk, hc, hin'⟩, heq⟩
  ret i hi hinstr := by
    obtain ⟨h, hb⟩ := exists_heightBehind_lower ht hall hinstr
    rw [Instr.heightBehind?, Option.ite_none_right_eq_some] at hb
    exact hb.1

/-- Before and behind every statement of a function the stack is empty. -/
theorem height_boundary {body u : Tree} {s : Emit.State} {before : List Instr}
    (hk : t.children[k]? = some c) (hc : c.kind = .function)
    (hbody : bodyOf? c.children = some body)
    (hl : Emit.Lowers u s body (Emit.after (Emit.prologue c) (t.itemState k)) before)
    (hi : i = t.bodyStart k c + before.length ∨
      i = t.bodyStart k c + before.length + (Emit.code (Emit.statement u) s).length)
    (hin : t.InItem k i) : t.height i = 0 := by
  obtain ⟨Γ, hfun, hready, -⟩ := exists_ready_function ht hk hc
  obtain ⟨-, hty, body', Γ', hbody', hmem, hps, htyped⟩ := hfun.parts
  obtain rfl : body = body' := Option.some.inj (hbody.symm.trans hbody')
  have hret : ∀ ty, some (Ty.ofFirst c.children) = some ty → ty.IsValue :=
    fun ty h => Option.some.inj h ▸ hty
  have hcAll : c.all indexesValue := all_of_mem hall (mem_of_getElem? hk)
  have hadds : Γ.Adds Γ' := hps.adds
  have hsits := hl.sits hret (.block _ _ _ htyped) (all_of_mem hcAll hmem)
    ((ready_prologue hready c).adds hadds)
  obtain ⟨rest, hrest⟩ := hsits.exists_behind
  obtain ⟨ahead, tail, hcode, hlen⟩ := exists_toList_body hk hc hbody
  rw [hrest] at hcode
  have hrises := rises_lower ht hall
  rw [hcode, append_assoc] at hrises
  obtain ⟨h, hahead, -⟩ := hrises.exists_of_append
  have hstart := (hahead.append (rises_prologue (arity_text ht hk hc) (t.itemState k) h)).append
    hsits.before
  have hlt : t.itemStart k < i := by
    rw [bodyStart, Emit.code_prologue, length_cons] at hi
    omega
  have hlen' : (ahead ++ Emit.code (Emit.prologue c) (t.itemState k) ++ before).length =
      t.bodyStart k c + before.length := by
    rw [length_append, length_append, hlen, bodyStart]
  refine height_of_rises hk hin hlt ?_
  rw [hcode]
  rcases hi with rfl | rfl
  · rw [append_assoc before, ← append_assoc, ← hlen', take_left]
    exact hstart
  · rw [append_assoc before, ← append_assoc, ← hlen', append_assoc _ rest, ← append_assoc,
      ← length_append, take_left]
    exact hstart.append hsits.inner

theorem exists_even_start {entry : String} (hentry : t.arity entry = some 0) (limit : Nat)
    (s : Machine.State) :
    ∃ s₀, (Machine.load t.lower entry limit).start? s = some s₀ ∧
    Machine.Even t.InFunction t.height s₀ := by
  obtain ⟨i, hi⟩ := exists_label_of_arity hentry
  obtain ⟨j, hj⟩ := Program.exists_lookup_labels hi
  obtain ⟨hregion, hheight⟩ := height_entry ht hall (Program.getElem?_of_lookup_labels hj) hentry
  refine ⟨{ s.clear with ip := j }, ?_, hregion, forall_mem_nil _, hheight.symm⟩
  exact congrArg (Option.map _) hj

end Heights

end Tree

/-- **Stack discipline.** In an accepted source without an index of a call that has no value, every
instruction of a function has a height, which is the number of arguments where the function begins
and zero between statements. In every state of a run that starts at a function without parameters,
the stack is as high as the heights say. No instruction takes what suspended calls have on the
stack, no step changes it, and a call and the return that belongs to it put one value in the place
of the arguments. -/
theorem compile_stack_heights {source : String} {p : Program} (h : compile source = .ok p)
    (hindex : (parse source).1.all Tree.indexesValue) :
    let t := (parse source).1
    (∀ (k : Nat) (c : Tree), t.children[k]? = some c → c.kind = .function →
      t.height (t.itemStart k) = (parametersOf c.children).length ∧
      ∀ (body u : Tree) (s : Emit.State) (before : List Instr) (i : Nat),
        bodyOf? c.children = some body →
        Emit.Lowers u s body (Emit.after (Emit.prologue c) (t.itemState k)) before → t.InItem k i →
        i = t.bodyStart k c + before.length ∨
          i = t.bodyStart k c + before.length + (Emit.code (Emit.statement u) s).length →
        t.height i = 0) ∧
    ∀ (entry : String) (limit : Nat) (s : Machine.State), t.arity entry = some 0 →
      let m := Machine.load p entry limit
      ∃ s₀, m.start? s = some s₀ ∧ ∀ s', m.Steps s₀ s' →
        s'.stack.length = t.height s'.ip + Machine.suspendedHeight t.height s'.callers ∧
        (∃ i, p.code[s'.ip]? = some i ∧ i.takes ≤ t.height s'.ip) ∧
        (∀ s'', m.step s' = .next s'' →
          Machine.bottom (Machine.suspendedHeight t.height s'.callers) s''.stack =
            Machine.bottom (Machine.suspendedHeight t.height s'.callers) s'.stack) ∧
        ∀ (f : String) (s₁ : Machine.State), p.code[s'.ip]? = some (.call f) →
          Builtin.ofName? f = none → m.step s' = .next s₁ →
          ∃ n, t.arity f = some n ∧ n ≤ t.height s'.ip ∧
            (∀ s'', m.Returns s' s'' → s''.ip = s'.ip + 1 ∧ s''.locals = s'.locals ∧
              s''.callers = s'.callers ∧ ∃ v, s''.stack = v :: s'.stack.drop n) ∧
            ∀ s'', m.Steps s₁ s'' →
              s₁.callers <:+ s''.callers ∨ ∃ r, m.Returns s' r ∧ m.Steps r s'' := by
  obtain ⟨ht, rfl⟩ := compile_typed h
  intro t
  refine ⟨fun k c hk hc => ⟨?_, ?_⟩, fun entry limit s hentry => ?_⟩
  · exact (Tree.height_entry ht hindex (Tree.getElem?_itemStart hk hc) (Tree.arity_text ht hk hc)).2
  · intro body u s before i hbody hl hin hi
    exact Tree.height_boundary ht hindex hk hc hbody hl hi hin
  · have hH := Tree.heights_lower ht hindex entry limit
    obtain ⟨s₀, hstart, heven⟩ := Tree.exists_even_start ht hindex hentry limit s
    refine ⟨s₀, hstart, fun s' hsteps => ?_⟩
    have heven' := Machine.even_of_steps hH heven hsteps
    refine ⟨heven'.length_eq, ?_, fun s'' hstep => (Machine.even_step hH heven' hstep).2, ?_⟩
    · obtain ⟨i, hi⟩ := hH.exists_instr _ heven'.region_ip
      exact ⟨i, hi, Machine.takes_le hH heven' hi⟩
    · intro f s₁ hi hb hcall
      obtain ⟨n, -, hn, -, -, -, hle, -, -⟩ := hH.call _ f heven'.region_ip hi hb
      refine ⟨n, hn, hle, fun s'' hret => ?_, fun s'' hsteps => ?_⟩
      · exact (Machine.returns_stack hH heven' hi hb hn hret).2
      · have hfirst :=
          Machine.callers_of_call (m := .load (parse source).1.lower entry limit) hi hb hcall
        rcases Machine.exists_returns hcall hfirst hsteps with ⟨-, hsuffix⟩ | hret
        · exact .inl hsuffix
        · exact .inr hret

/-- A source with a call in a loop. -/
def callInLoop : String :=
  "fn int f(int n) { return n; } fn int main() { while (f(1) + 1) { break; } return 0; }"

theorem compile_of_isEmpty {source : String} (hparse : (parse source).2.isEmpty)
    (htypes : (parse source).1.typeErrors.isEmpty) :
    compile source = .ok (parse source).1.lower := by
  simp [compile, hparse, htypes]

theorem callInLoop_compile : compile callInLoop = .ok (parse callInLoop).1.lower := by
  have hfacts : (parse callInLoop).2.isEmpty ∧ (parse callInLoop).1.typeErrors.isEmpty := by
    rw [parse_ofList callInLoop rfl]
    decide +kernel
  exact compile_of_isEmpty hfacts.1 hfacts.2

/-- In this source the code of `f` begins with one argument on the stack, and the call in `main`
stands with one operand on it. -/
theorem callInLoop_stack_heights :
    (parse callInLoop).1.all Tree.indexesValue ∧
    ((List.range 16).map fun i => (parse callInLoop).1.height i) =
      [1, 1, 0, 1, 0, 0, 0, 1, 1, 2, 1, 0, 0, 0, 0, 1] ∧
    ∀ s : Machine.State, ∃ s₀, (Machine.load (parse callInLoop).1.lower).start? s = some s₀ ∧
      ∀ s', (Machine.load (parse callInLoop).1.lower).Steps s₀ s' →
        s'.stack.length = (parse callInLoop).1.height s'.ip +
          Machine.suspendedHeight (parse callInLoop).1.height s'.callers := by
  have hfacts : (parse callInLoop).1.all Tree.indexesValue ∧
      (parse callInLoop).1.arity "main" = some 0 ∧
      ((List.range 16).map fun i => (parse callInLoop).1.height i) =
        [1, 1, 0, 1, 0, 0, 0, 1, 1, 2, 1, 0, 0, 0, 0, 1] := by
    rw [parse_ofList callInLoop rfl]
    decide +kernel
  obtain ⟨hindex, hentry, hheights⟩ := hfacts
  refine ⟨hindex, hheights, fun s => ?_⟩
  obtain ⟨s₀, hstart, hstate⟩ :=
    (compile_stack_heights callInLoop_compile hindex).2 "main" _ s hentry
  exact ⟨s₀, hstart, fun s' hsteps => (hstate s' hsteps).1⟩

end Stacklet
