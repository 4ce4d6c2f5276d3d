import Mathlib.Data.List.Perm.Subperm
import Mathlib.Data.List.Nodup
import Stacklet.Proofs.Emission.Statement
import Stacklet.Proofs.Execution
/-!
# The labels of generated code

Every construct places each label that it makes once, and jumps only to those and to the labels of
the loop around it.

* `labelText_injective`, `label_notMem_functions`: new labels are distinct, and none is the name of
  a function, however many such names are in the way.
* `Emit.minted`: the labels that are made while the count of labels goes from one number to another.
* `Emit.Tidy`: computations that place the labels that they make and jump to nothing else.
  `statement_tidy`: statements are tidy, whatever their shape.
-/

namespace Stacklet

open List

variable {a b : Nat} {l : String}

/-! ## Numbered texts -/

theorem Number.decimal_natCast_injective : Function.Injective fun n : Nat => Number.decimal n := by
  intro m n h
  have hd : Nat.toDigits 10 m = Nat.toDigits 10 n := String.ofList_injective h
  have hm := Nat.ofDigitChars_toDigits (b := 10) (n := m) (by decide) (by decide)
  rw [hd] at hm
  exact hm.symm.trans (Nat.ofDigitChars_toDigits (by decide) (by decide))

theorem labelText_injective : Function.Injective labelText := by
  intro m n h
  exact Number.decimal_natCast_injective (String.append_right_inj "L" |>.mp h)

/-- All numbers that were passed over are taken, and so is the answer only if it is the last one. -/
theorem freshNumber_spec (taken : List String) (k n : Nat) :
    (∀ m, n ≤ m → m < freshNumber taken k n → labelText m ∈ taken) ∧
      (labelText (freshNumber taken k n) ∈ taken → freshNumber taken k n = n + k) := by
  induction k generalizing n with
  | zero =>
    exact ⟨fun m h h' => absurd h' (Nat.not_lt.mpr h), fun _ => rfl⟩
  | succ k ih =>
    rw [freshNumber]
    split
    · next htaken =>
      obtain ⟨hpassed, hlast⟩ := ih (n + 1)
      refine ⟨fun m hm hm' => ?_, fun h => (hlast h).trans (by omega)⟩
      by_cases hmn : m = n
      · rw [hmn]
        exact contains_iff_mem.mp htaken
      · exact hpassed m (by omega) hm'
    · next hfree =>
      refine ⟨fun m h h' => absurd h' (Nat.not_lt.mpr h), fun h => ?_⟩
      exact absurd (contains_iff_mem.mpr h) hfree

/-- A list of `k` texts does not contain `k + 1` labels in a row. -/
theorem labelText_freshNumber_notMem (taken : List String) (n : Nat) :
    labelText (freshNumber taken taken.length n) ∉ taken := by
  intro h
  obtain ⟨hpassed, hlast⟩ := freshNumber_spec taken taken.length n
  have hend := hlast h
  have hsub : (range' n (taken.length + 1)).map labelText ⊆ taken := by
    intro l hl
    obtain ⟨m, hm, rfl⟩ := mem_map.mp hl
    rw [mem_range'_1] at hm
    by_cases hmn : m = freshNumber taken taken.length n
    · rwa [hmn]
    · exact hpassed m hm.1 (by omega)
  have hnodup : ((range' n (taken.length + 1)).map labelText).Nodup :=
    (nodup_range' 1).map labelText_injective
  have hlen := (hnodup.subperm hsub).length_le
  rw [length_map, length_range'] at hlen
  omega

namespace Emit

variable {s : State}

/-! ## The labels that are made -/

/-- The labels with numbers from `a` on and below `b` that are not taken. -/
def minted (taken : List String) (a b : Nat) : List String :=
  ((range' a (b - a)).map labelText).filter (· ∉ taken)

theorem nodup_minted (taken : List String) (a b : Nat) : (minted taken a b).Nodup :=
  ((nodup_range' 1).map labelText_injective).filter _

theorem mem_minted {taken : List String} :
    l ∈ minted taken a b ↔ (∃ n, a ≤ n ∧ n < b ∧ labelText n = l) ∧ l ∉ taken := by
  rw [minted, mem_filter, mem_map, decide_eq_true_iff]
  refine and_congr_left fun _ => exists_congr fun n => ?_
  rw [mem_range'_1]
  constructor
  · rintro ⟨⟨h₁, h₂⟩, h⟩
    exact ⟨h₁, by omega, h⟩
  · rintro ⟨h₁, h₂, h⟩
    exact ⟨⟨h₁, by omega⟩, h⟩

theorem notMem_of_mem_minted {taken : List String} (h : l ∈ minted taken a b) :
    l ∉ taken := (mem_minted.mp h).2

@[simp] theorem minted_self (taken : List String) (a : Nat) : minted taken a a = [] := by
  simp [minted]

theorem minted_append (taken : List String) {c : Nat} (hab : a ≤ b) (hbc : b ≤ c) :
    minted taken a c = minted taken a b ++ minted taken b c := by
  have hrange : range' a (c - a) = range' a (b - a) ++ range' b (c - b) := by
    have h : range' a (b - a) ++ range' (a + (b - a)) (c - b) = range' a (b - a + (c - b)) :=
      range'_append_1
    rw [show a + (b - a) = b by omega, show b - a + (c - b) = c - a by omega] at h
    exact h.symm
  rw [minted, hrange, map_append, filter_append]
  rfl

namespace State

theorem label_notMem_functions (s : State) : s.label ∉ s.functions :=
  labelText_freshNumber_notMem s.functions s.nextLabel

/-- The labels that are made between two states. -/
def mintedTo (s s' : State) : List String := minted s.functions s.nextLabel s'.nextLabel

/-- **One label is made** at a time. -/
theorem mintedTo_labelled (s : State) : s.mintedTo s.labelled = [s.label] := by
  have hle : s.nextLabel ≤ s.labelNumber := le_freshNumber _ _ _
  have hpassed := (freshNumber_spec s.functions s.functions.length s.nextLabel).1
  have hnone : minted s.functions s.nextLabel s.labelNumber = [] := by
    refine filter_eq_nil_iff.mpr fun l hl => ?_
    obtain ⟨m, hm, rfl⟩ := mem_map.mp hl
    rw [mem_range'_1] at hm
    simpa using hpassed m hm.1 (show m < s.labelNumber by omega)
  have hone : minted s.functions s.labelNumber (s.labelNumber + 1) = [s.label] := by
    have hfree : labelText s.labelNumber ∉ s.functions := s.label_notMem_functions
    simp [minted, hfree, State.label]
  show minted s.functions s.nextLabel (s.labelNumber + 1) = [s.label]
  rw [minted_append _ hle (Nat.le_succ _), hnone, hone, nil_append]

theorem mintedTo_append {s s' : State} (s'' : State) (hf : s'.functions = s.functions)
    (h : s.nextLabel ≤ s'.nextLabel) (h' : s'.nextLabel ≤ s''.nextLabel) :
    s.mintedTo s'' = s.mintedTo s' ++ s'.mintedTo s'' := by
  rw [mintedTo, minted_append _ h h', mintedTo, mintedTo, hf]

theorem mintedTo_labelled_append {s s' : State} (h : s.labelled.nextLabel ≤ s'.nextLabel) :
    s.mintedTo s' = s.label :: s.labelled.mintedTo s' := by
  have hsplit : s.mintedTo s' = s.mintedTo s.labelled ++ s.labelled.mintedTo s' :=
    mintedTo_append s' rfl (extends_labelled s).label_le h
  rw [hsplit, mintedTo_labelled]
  rfl

end State

/-! ## Labels and targets of code -/

def labelsIn (c : List Instr) : List String := c.filterMap Instr.placed?

def targetsIn (c : List Instr) : List String := c.filterMap Instr.target?

@[simp] theorem labelsIn_append (c c' : List Instr) :
    labelsIn (c ++ c') = labelsIn c ++ labelsIn c' :=
  filterMap_append

@[simp] theorem targetsIn_append (c c' : List Instr) :
    targetsIn (c ++ c') = targetsIn c ++ targetsIn c' :=
  filterMap_append

@[simp] theorem labelsIn_nil : labelsIn [] = [] := rfl

@[simp] theorem targetsIn_nil : targetsIn [] = [] := rfl

section

variable (l : String) (c : List Instr)

@[simp] theorem labelsIn_label : labelsIn (.label l :: c) = l :: labelsIn c := rfl

@[simp] theorem targetsIn_label : targetsIn (.label l :: c) = targetsIn c := rfl

@[simp] theorem labelsIn_jump : labelsIn (.jump l :: c) = labelsIn c := rfl

@[simp] theorem targetsIn_jump : targetsIn (.jump l :: c) = l :: targetsIn c := rfl

@[simp] theorem labelsIn_jumpIfZero :
    labelsIn (.jumpIfZero l :: c) = labelsIn c := rfl

@[simp] theorem targetsIn_jumpIfZero :
    targetsIn (.jumpIfZero l :: c) = l :: targetsIn c := rfl

end

@[simp] theorem labelsIn_ret (c : List Instr) : labelsIn (.ret :: c) = labelsIn c := rfl

@[simp] theorem targetsIn_ret (c : List Instr) : targetsIn (.ret :: c) = targetsIn c := rfl

theorem labelsIn_of_straight {c : List Instr} (h : ∀ i ∈ c, i.isStraight) : labelsIn c = [] := by
  refine filterMap_eq_nil_iff.mpr fun i hi => ?_
  have := h i hi
  cases i <;> first | rfl | cases this

theorem targetsIn_of_straight {c : List Instr} (h : ∀ i ∈ c, i.isStraight) : targetsIn c = [] := by
  refine filterMap_eq_nil_iff.mpr fun i hi => ?_
  have := h i hi
  cases i <;> first | rfl | cases this

/-- The labels of the innermost loop. -/
def State.loopTargets (s : State) : List String :=
  (s.loops.take 1).flatMap fun labels => [labels.breakTo, labels.continueTo]

@[simp] theorem State.loopTargets_within (s : State) (labels : LoopLabels) :
    (s.within labels).loopTargets = [labels.breakTo, labels.continueTo] := rfl

/-- A computation that places once each label that it makes and those in `P`, and jumps only to
labels that it places, to labels in `A` and to the labels of the loop around. -/
structure Tidy (A P : List String) (x : Emit Unit) : Prop where
  steady : Steady x
  labels : ∀ s, (labelsIn (code x s)).Perm (P ++ s.mintedTo (after x s))
  targets : ∀ s, targetsIn (code x s) ⊆ labelsIn (code x s) ++ A ++ s.loopTargets

namespace Tidy

variable {A B P Q : List String} {x y : Emit Unit}

theorem label_le (h : Tidy A P x) (s : State) : s.nextLabel ≤ (after x s).nextLabel :=
  have := h.steady
  (Steady.extend s).label_le

theorem weaken (h : Tidy A P x) (hA : A ⊆ B) (hP : P.Perm Q) : Tidy B Q x where
  steady := h.steady
  labels s := (h.labels s).trans (hP.append_right _)
  targets s := by
    have := h.targets s
    grind

theorem of_after [Steady x] (ha : ∀ s, (after x s).nextLabel = s.nextLabel)
    (hl : ∀ s, labelsIn (code x s) = P) (ht : ∀ s, targetsIn (code x s) ⊆ A ++ s.loopTargets) :
    Tidy A P x where
  steady := inferInstance
  labels s := by
    rw [hl, State.mintedTo, ha, minted_self, append_nil]
  targets s := by
    have := ht s
    grind

theorem of_plain (h : Plain x) : Tidy A [] x := by
  refine .of_after (fun s => ?_) (fun s => labelsIn_of_straight (Plain.straight s)) fun s => ?_
  · obtain ⟨k, -, hk⟩ := Plain.after_eq (x := x) s
    rw [hk]
    rfl
  · rw [targetsIn_of_straight (Plain.straight s)]
    exact nil_subset _

theorem ret (loc : Loc) : Tidy A [] (emit loc .ret) :=
  .of_after (fun _ => rfl) (fun _ => rfl) fun _ => nil_subset _

theorem place (loc : Loc) (l : String) : Tidy A [l] (emit loc (.label l)) :=
  .of_after (fun _ => rfl) (fun _ => rfl) fun _ => nil_subset _

theorem jump (loc : Loc) (hl : l ∈ A) : Tidy A [] (emit loc (.jump l)) :=
  .of_after (fun _ => rfl) (fun _ => rfl) fun _ =>
    cons_subset.mpr ⟨mem_append_left _ hl, nil_subset _⟩

theorem jumpIfZero (loc : Loc) (hl : l ∈ A) : Tidy A [] (emit loc (.jumpIfZero l)) :=
  .of_after (fun _ => rfl) (fun _ => rfl) fun _ =>
    cons_subset.mpr ⟨mem_append_left _ hl, nil_subset _⟩

theorem leap (loc : Loc) (target : LoopLabels → String)
    (h : target = LoopLabels.breakTo ∨ target = LoopLabels.continueTo) :
    Tidy A [] (loopJump loc target) := by
  refine .of_after (fun s => ?_) (fun s => ?_) fun s => ?_
  · rw [after_loopJump]
    rfl
  · rw [code_loopJump]
    cases s.loops <;> rfl
  · rw [code_loopJump, State.loopTargets]
    cases s.loops with
    | nil => exact nil_subset _
    | cons labels loops => rcases h with rfl | rfl <;> simp

theorem introduce (ty : Ty) (t : Tree) : Tidy A [] (introduce ty t) := by
  refine .of_after (fun s => ?_) (fun s => ?_) fun s => ?_
  · rw [after_introduce, State.declaredAs]
    split <;> rfl
  · rw [code_introduce]
    rfl
  · rw [code_introduce]
    exact nil_subset _

theorem seq (hx : Tidy A P x) (hy : Tidy A Q y) : Tidy A (P ++ Q) (x >>= fun _ => y) := by
  have := hx.steady
  have := hy.steady
  have hkeep (s : State) : s.Extends (after x s) := Steady.extend s
  refine ⟨inferInstance, fun s => ?_, fun s => ?_⟩
  · have hsplit := State.mintedTo_append (after y (after x s)) (hkeep s).functions_eq
      (hx.label_le s)
      (hy.label_le (after x s))
    have hperm := (hx.labels s).append (hy.labels (after x s))
    rw [code_bind, after_bind, labelsIn_append, hsplit]
    refine hperm.trans ?_
    -- what `y` places comes before what `x` makes
    rw [append_assoc, append_assoc]
    refine .append_left P ?_
    rw [← append_assoc, ← append_assoc]
    exact perm_append_comm.append_right _
  · have hloops : (after x s).loopTargets = s.loopTargets := by
      rw [State.loopTargets, (hkeep s).loops_eq, State.loopTargets]
    have h := hx.targets s
    have h' := hy.targets (after x s)
    rw [code_bind, labelsIn_append, targetsIn_append]
    grind

theorem look {f : State → Emit Unit} (hf : ∀ s, f s.blank = f s) (h : ∀ s, Tidy A P (f s)) :
    Tidy A P (get >>= f) := by
  have := fun s => (h s).steady
  refine ⟨.get_bind hf, fun s => ?_, fun s => ?_⟩
  · rw [code_get_bind hf, after_get_bind]
    exact (h s).labels s
  · rw [code_get_bind hf]
    exact (h s).targets s

/-- **A new label** may be jumped to if it is placed. -/
theorem fresh {f : String → Emit Unit} (h : ∀ l, Tidy (l :: A) (l :: P) (f l)) :
    Tidy A P (freshLabel >>= f) := by
  have := fun l => (h l).steady
  refine ⟨inferInstance, fun s => ?_, fun s => ?_⟩
  · have hsplit := State.mintedTo_labelled_append ((h s.label).label_le s.labelled)
    rw [code_bind, after_bind, code_freshLabel, result_freshLabel, after_freshLabel, hsplit]
    exact ((h s.label).labels s.labelled).trans perm_middle.symm
  · have hplaced : s.label ∈ labelsIn (code (f s.label) s.labelled) :=
      ((h s.label).labels s.labelled).mem_iff.mpr mem_cons_self
    have ht := (h s.label).targets s.labelled
    have hloops : s.labelled.loopTargets = s.loopTargets := rfl
    rw [code_bind, code_freshLabel, result_freshLabel, after_freshLabel, nil_append]
    grind

theorem scope (h : Tidy A P x) : Tidy A P (inScope x) :=
  have := h.steady
  ⟨inferInstance, fun s => h.labels s.enter, fun s => h.targets s.enter⟩

theorem loop {labels : LoopLabels} (h : Tidy A P x) (hb : labels.breakTo ∈ A)
    (hc : labels.continueTo ∈ A) :
    Tidy A P (inLoop labels x) := by
  have := h.steady
  refine ⟨inferInstance, fun s => h.labels (s.within labels), fun s => ?_⟩
  have ht := h.targets (s.within labels)
  rw [State.loopTargets_within] at ht
  rw [code_inLoop]
  grind

end Tidy

/-! ## Statements are tidy -/

theorem closed_tidy : Closed Eq fun A x _ => Tidy A [] x where
  mono h := h.weaken (nil_subset _) (.refl _)
  nothing := .of_plain inferInstance
  expression _ _ := .of_plain inferInstance
  seq := .seq
  look hf := .look fun s => (hf s _).1
  ret _ := .ret _
  leap target _ := .leap _ target
  declarator ty _ := .seq (.of_plain inferInstance) (.introduce ty _)
  scope := .scope
  skip _ _ hl := .seq (.of_plain inferInstance) (.jumpIfZero _ hl)
  branch := by
    intro A c _ x _ _ hx done hd
    refine .fresh fun next => ?_
    refine .seq (.seq (.of_plain inferInstance) (.jumpIfZero c.loc mem_cons_self)) ?_
    refine .seq (hx.weaken (nil_subset _) (.refl _)) ?_
    exact .seq (.jump c.loc (mem_cons_of_mem next hd)) (.place c.loc next)
  conditional := by
    intro A loc _ x _ _ hx
    refine .fresh fun done => ?_
    exact .seq ((hx done).weaken (by simp) (.refl _)) (.place loc done)
  whileLoop := by
    intro A loc _ test _ body _ _ htest hbody
    refine .fresh fun start => .fresh fun done =>
      .weaken ?_ (List.Subset.refl _) (.swap done start [])
    refine .seq (.place loc start) (.seq ((htest done).weaken (by simp) (.refl _)) ?_)
    refine .seq (.loop (hbody.weaken (nil_subset _) (.refl _)) (by simp) (by simp)) ?_
    exact .seq (.jump loc (by simp)) (.place loc done)
  doWhile := by
    intro A loc _ test _ body _ _ htest hbody
    refine .fresh fun start => .fresh fun next => .fresh fun done => ?_
    refine .weaken ?_ (List.Subset.refl _) (reverse_perm [done, next, start])
    refine .seq (.place loc start) ?_
    refine .seq (.loop (hbody.weaken (nil_subset _) (.refl _)) (by simp) (by simp)) ?_
    refine .seq (.place loc next) (.seq ((htest done).weaken (by simp) (.refl _)) ?_)
    exact .seq (.jump loc (by simp)) (.place loc done)
  forLoop := by
    intro A loc _ test _ body _ step _ _ htest hbody hstep
    refine .fresh fun start => .fresh fun next => .fresh fun done => ?_
    refine .weaken ?_ (List.Subset.refl _) (reverse_perm [done, next, start])
    refine .seq (.place loc start) (.seq ((htest done).weaken (by simp) (.refl _)) ?_)
    refine .seq (.loop (hbody.weaken (nil_subset _) (.refl _)) (by simp) (by simp)) ?_
    refine .seq (.place loc next) (.seq (hstep.weaken (nil_subset _) (.refl _)) ?_)
    exact .seq (.jump loc (by simp)) (.place loc done)

/-- **Statements are tidy**, whatever their shape. -/
theorem statement_tidy (t : Tree) : Tidy [] [] (statement t) := closed_tidy.statement (.refl t)

/-! ## Functions and programs -/

/-- The label that an item begins with: the name, if it is a function. -/
def ownLabel (t : Tree) : List String := if t.kind = .function then [t.text] else []

theorem nextLabel_declaredAs (s : State) (name : String) (ty : Ty) :
    (s.declaredAs name ty).nextLabel = s.nextLabel := by
  unfold State.declaredAs
  split <;> rfl

theorem nextLabel_withParams (s : State) (ps : List Tree) :
    (s.withParams ps).nextLabel = s.nextLabel := by
  induction ps generalizing s with
  | nil => rfl
  | cons p ps ih => exact (ih _).trans (nextLabel_declaredAs ..)

/-- What an item does with labels: a function places its name, and any item places once the labels
that it makes and jumps to nothing else. -/
structure ItemLabels (s s' : State) (own : List String) (c : List Instr) : Prop where
  functions_eq : s'.functions = s.functions
  loops_eq : s'.loops = s.loops
  label_le : s.nextLabel ≤ s'.nextLabel
  labels : (labelsIn c).Perm (own ++ s.mintedTo s')
  targets : targetsIn c ⊆ s.mintedTo s'

theorem labelsIn_endCode (ty : Ty) (c : List Instr) : labelsIn (endCode ty c) = [] := by
  unfold endCode
  split
  · rfl
  · cases ty <;> rfl

theorem targetsIn_endCode (ty : Ty) (c : List Instr) : targetsIn (endCode ty c) = [] := by
  unfold endCode
  split
  · rfl
  · cases ty <;> rfl

theorem labelsIn_stores (slots : List String) : labelsIn (slots.map Instr.store).reverse = [] := by
  refine labelsIn_of_straight fun i hi => ?_
  obtain ⟨x, -, rfl⟩ := mem_map.mp (mem_reverse.mp hi)
  rfl

theorem targetsIn_stores (slots : List String) :
    targetsIn (slots.map Instr.store).reverse = [] := by
  refine targetsIn_of_straight fun i hi => ?_
  obtain ⟨x, -, rfl⟩ := mem_map.mp (mem_reverse.mp hi)
  rfl

theorem statement_itemLabels (t : Tree) (h : s.loops = []) :
    ItemLabels s (after (statement t) s) [] (code (statement t) s) := by
  have hkeep : s.Extends (after (statement t) s) := Steady.extend s
  have hlabels := (statement_tidy t).labels s
  refine ⟨hkeep.functions_eq, hkeep.loops_eq, hkeep.label_le, hlabels, ?_⟩
  have htargets := (statement_tidy t).targets s
  rw [State.loopTargets, h] at htargets
  intro l hl
  have hmem : l ∈ labelsIn (code (statement t) s) := by simpa using htargets hl
  exact hlabels.mem_iff.mp hmem

theorem function_itemLabels (t : Tree) (h : s.loops = []) :
    ItemLabels s (after (function t) s) [t.text] (code (function t) s) := by
  have hkeep := extends_withParams (s.forFunction (.ofFirst t.children)) (parametersOf t.children)
  have hn := nextLabel_withParams (s.forFunction (.ofFirst t.children)) (parametersOf t.children)
  rw [← after_prologue] at hkeep hn
  have hf := hkeep.functions_eq
  have hl := hkeep.loops_eq
  have hbody : ItemLabels s (after (opening t) s) [t.text] (code (opening t) s) := by
    rw [after_opening, code_opening, code_prologue]
    cases bodyOf? t.children with
    | none =>
      refine ⟨hf, hl, Nat.le_of_eq hn.symm, ?_, ?_⟩
      · simp [labelsIn_stores, State.mintedTo, hn, State.forFunction, State.blank]
      · simp [targetsIn_stores]
    | some body =>
      have hb := statement_itemLabels body (hl.trans h)
      have hm : (after (prologue t) s).mintedTo (after (statement body) (after (prologue t) s)) =
          s.mintedTo (after (statement body) (after (prologue t) s)) := by
        rw [State.mintedTo, State.mintedTo, hf, hn]
        rfl
      refine ⟨hb.functions_eq.trans hf, hb.loops_eq.trans hl, ?_, ?_, ?_⟩
      · exact hn ▸ hb.label_le
      · simpa [labelsIn_stores, hm] using hb.labels
      · simpa [targetsIn_stores, hm] using hb.targets
  rw [after_function, code_function]
  refine ⟨hbody.functions_eq, hbody.loops_eq, hbody.label_le, ?_, ?_⟩
  · rw [labelsIn_append, labelsIn_endCode, append_nil]
    exact hbody.labels
  · rw [targetsIn_append, targetsIn_endCode, append_nil]
    exact hbody.targets

theorem item_itemLabels (t : Tree) (h : s.loops = []) :
    ItemLabels s (after (item t) s) (ownLabel t) (code (item t) s) := by
  unfold item ownLabel
  split
  · exact function_itemLabels t h
  · exact statement_itemLabels t h

theorem items_itemLabels (ts : List Tree) (h : s.loops = []) :
    ItemLabels s (after (ts.forM item) s) (ts.flatMap ownLabel) (code (ts.forM item) s) := by
  induction ts generalizing s with
  | nil =>
    refine ⟨rfl, rfl, Nat.le_refl _, .of_eq ?_, nil_subset _⟩
    exact (minted_self _ _).symm
  | cons t ts ih =>
    have ht := item_itemLabels t h
    have hts := ih (ht.loops_eq.trans h)
    have hsplit := State.mintedTo_append _ ht.functions_eq ht.label_le hts.label_le
    rw [after_forM_cons, code_forM_cons, flatMap_cons]
    refine ⟨hts.functions_eq.trans ht.functions_eq, hts.loops_eq.trans ht.loops_eq,
      Nat.le_trans ht.label_le hts.label_le, ?_, ?_⟩
    · rw [labelsIn_append, hsplit, perm_iff_count]
      intro l
      have h₁ := ht.labels.count_eq l
      have h₂ := hts.labels.count_eq l
      simp only [count_append] at h₁ h₂ ⊢
      omega
    · rw [targetsIn_append, hsplit]
      have h₁ := ht.targets
      have h₂ := hts.targets
      grind

theorem mem_labelsIn {instrs : List Instr} :
    l ∈ labelsIn instrs ↔ ∃ j : Nat, instrs[j]? = some (.label l) := by
  rw [labelsIn, mem_filterMap]
  constructor
  · rintro ⟨i, hi, hl⟩
    obtain rfl := Instr.placed?_eq_some hl
    exact mem_iff_getElem?.mp hi
  · intro h
    exact ⟨.label l, mem_iff_getElem?.mpr h, rfl⟩

theorem existsUnique_of_count_labelsIn {instrs : List Instr} (h : (labelsIn instrs).count l = 1) :
    ∃! j : Nat, instrs[j]? = some (.label l) := by
  obtain ⟨j, hj⟩ := mem_labelsIn.mp (count_pos_iff.mp (by omega : 0 < (labelsIn instrs).count l))
  refine ⟨j, hj, fun k hk => ?_⟩
  -- a second place would count twice
  have twice {a b : Nat} (ha : instrs[a]? = some (.label l)) (hb : instrs[b]? = some (.label l)) :
      ¬ a < b := by
    intro hab
    have hsplit : labelsIn instrs = labelsIn (instrs.take b) ++ labelsIn (instrs.drop b) := by
      rw [← labelsIn_append, take_append_drop]
    have h₁ : 0 < (labelsIn (instrs.take b)).count l :=
      count_pos_iff.mpr (mem_labelsIn.mpr ⟨a, by rw [List.getElem?_take_of_lt hab, ha]⟩)
    have h₂ : 0 < (labelsIn (instrs.drop b)).count l :=
      count_pos_iff.mpr (mem_labelsIn.mpr ⟨0, by rw [getElem?_drop, Nat.add_zero, hb]⟩)
    rw [hsplit, count_append] at h
    omega
  have := twice hj hk
  have := twice hk hj
  omega

end Emit

namespace Tree

variable (t : Tree)

/-- The labels that are made for a program. -/
def minted : List String :=
  Emit.minted (t.functions.map Tree.text) 0 ((t.children.forM Emit.item).run t.start).2.nextLabel

theorem lower_itemLabels :
    Emit.ItemLabels t.start (Emit.after (t.children.forM Emit.item) t.start)
      (t.children.flatMap Emit.ownLabel) t.lower.code.toList :=
  t.toList_lower ▸ Emit.items_itemLabels t.children rfl

theorem flatMap_ownLabel (ts : List Tree) :
    ts.flatMap Emit.ownLabel = (ts.filter fun c => c.kind == .function).map Tree.text := by
  induction ts with
  | nil => rfl
  | cons c ts ih =>
    rw [flatMap_cons, ih, filter_cons, Emit.ownLabel]
    by_cases h : c.kind = .function <;> simp [h]

theorem existsUnique_label (h : l ∈ t.minted) : ∃! j : Nat, t.lower.code[j]? = some (.label l) := by
  have hcount := t.lower_itemLabels.labels.count_eq l
  have hown : (t.children.flatMap Emit.ownLabel).count l = 0 := by
    rw [count_eq_zero, flatMap_ownLabel]
    exact Emit.notMem_of_mem_minted h
  have hmade : t.minted.count l = 1 := count_eq_one_of_mem (Emit.nodup_minted ..) h
  simp only [← Array.getElem?_toList]
  refine Emit.existsUnique_of_count_labelsIn ?_
  rw [hcount, count_append, hown, Nat.zero_add]
  exact hmade

theorem itemState_keeps (k : Nat) :
    (t.itemState k).functions = t.functions.map Tree.text ∧ (t.itemState k).loops = [] := by
  have h := Emit.items_itemLabels (t.children.take k) (s := t.start) rfl
  exact ⟨h.functions_eq, h.loops_eq⟩

theorem mem_minted_of_item {k : Nat} (h : l ∈ (t.itemState k).mintedTo (t.itemState (k + 1))) :
    l ∈ t.minted := by
  obtain ⟨⟨n, -, hn, rfl⟩, hfree⟩ := Emit.mem_minted.mp h
  have hrest := Emit.items_itemLabels (t.children.drop (k + 1)) (t.itemState_keeps (k + 1)).2
  have hend : Emit.after ((t.children.drop (k + 1)).forM Emit.item) (t.itemState (k + 1)) =
      Emit.after (t.children.forM Emit.item) t.start := by
    rw [itemState, ← Emit.after_forM_append, take_append_drop]
  have hle := hrest.label_le
  rw [hend] at hle
  refine Emit.mem_minted.mpr ⟨⟨n, Nat.zero_le n, Nat.lt_of_lt_of_le hn hle, rfl⟩, ?_⟩
  rwa [(t.itemState_keeps k).1] at hfree

theorem exists_label_of_jump {i : Nat} {instr : Instr} (hi : t.lower.code[i]? = some instr)
    (hl : instr.target? = some l) :
    l ∈ t.minted ∧ ∃ k j, t.InItem k i ∧ t.InItem k j ∧ t.lower.code[j]? = some (.label l) := by
  obtain ⟨hlt, -⟩ := Array.getElem?_eq_some_iff.mp hi
  obtain ⟨k, hk, hin⟩ := t.exists_inItem hlt
  have hc : t.children[k]? = some t.children[k] := getElem?_eq_getElem hk
  have hitem := Emit.item_itemLabels t.children[k] (t.itemState_keeps k).2
  rw [← t.itemCode_of_getElem? hc, ← t.itemState_succ hc] at hitem
  -- the jump within the code of its item
  obtain ⟨d, rfl⟩ := Nat.exists_eq_add_of_le hin.1
  have hd : d < (t.itemCode k).length := by
    have := hin.2
    rw [itemStart_succ] at this
    omega
  rw [t.getElem?_lower hd] at hi
  have hmade := hitem.targets (mem_filterMap.mpr ⟨instr, mem_of_getElem? hi, hl⟩)
  -- the label within the same code
  obtain ⟨e, he⟩ := Emit.mem_labelsIn.mp (hitem.labels.mem_iff.mpr (mem_append_right _ hmade))
  obtain ⟨hlt', -⟩ := List.getElem?_eq_some_iff.mp he
  refine ⟨t.mem_minted_of_item hmade, k, t.itemStart k + e, hin, ⟨Nat.le_add_right _ _, ?_⟩, ?_⟩
  · rw [itemStart_succ]
    omega
  · rw [t.getElem?_lower hlt', he]

/-- **Label hygiene.** Each label that is made for a program is no name of a function and is placed
once. Every jump goes to such a label, which stands in the code of the same item. So no run comes to
an unknown label, and a jump that is taken stays in the code of its item. -/
theorem lower_labels_placed_once :
    (∀ l ∈ t.minted, l ∉ t.functions.map Tree.text ∧
      ∃! j : Nat, t.lower.code[j]? = some (.label l)) ∧
    (∀ (i : Nat) (instr : Instr) (l : String), t.lower.code[i]? = some instr →
      instr.target? = some l →
      l ∈ t.minted ∧ ∃ k j, t.InItem k i ∧ t.InItem k j ∧ t.lower.code[j]? = some (.label l)) ∧
    ∀ (entry : String) (limit : Nat),
      (∀ fuel s r, (Machine.load t.lower entry limit).run fuel s = some r →
        ∀ l, r.result ≠ .error (.unknownLabel l)) ∧
      ∀ (s s' : Machine.State) (instr : Instr) (l : String), t.lower.code[s.ip]? = some instr →
        instr.target? = some l → (Machine.load t.lower entry limit).step s = .next s' →
        (instr = .jumpIfZero l ∧ s'.ip = s.ip + 1) ∨ ∃ k, t.InItem k s.ip ∧ t.InItem k s'.ip := by
  refine ⟨fun l hl => ⟨Emit.notMem_of_mem_minted hl, t.existsUnique_label hl⟩,
    fun i instr l hi hl => t.exists_label_of_jump hi hl, fun entry limit => ⟨?_, ?_⟩⟩
  · intro fuel s r hrun l hr
    rcases Machine.failure_of_run hrun hr with ⟨e, he⟩ | ⟨_, s', instr, -, -, hi, hfail⟩
    · cases he
    · cases hfail with
      | label _ hl hnone =>
        obtain ⟨-, -, j, -, -, hj⟩ := t.exists_label_of_jump hi hl
        obtain ⟨j', hj'⟩ := Program.exists_lookup_labels hj
        exact Option.some_ne_none j' (hj'.symm.trans hnone)
  · intro s s' instr l hi hl hstep
    obtain ⟨instr', hi', -, hmove⟩ := Machine.move_of_step hstep
    obtain rfl : instr = instr' := Option.some.inj (hi.symm.trans hi')
    cases hmove with
    | onward vs locals world hon =>
      cases instr with
      | jumpIfZero l' => exact .inl ⟨congrArg Instr.jumpIfZero (Option.some.inj hl), rfl⟩
      | jump => cases hon
      | _ => cases hl
    | jump l' ip hl' hip =>
      obtain rfl : l = l' := Option.some.inj (hl.symm.trans hl')
      obtain ⟨hmade, k, j, hk, hk', hj⟩ := t.exists_label_of_jump hi hl
      have hplaced := Program.getElem?_of_lookup_labels hip
      obtain rfl : ip = j := (t.existsUnique_label hmade).unique hplaced hj
      exact .inr ⟨k, hk, hk'⟩
    | call f ip hf => rw [hf] at hl; cases hl
    | ret caller callers hret => rw [hret] at hl; cases hl

end Tree

end Stacklet
