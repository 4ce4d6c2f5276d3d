import Mathlib.Data.List.Basic
import Stacklet.Code.Lower
/-!
# Code as it is appended

Lowering only ever appends instructions, and what it appends does not depend on the code that is
there. The code of a computation is therefore a list of its own, and the code of two computations in
a row is the two lists in a row (`code_bind`).

* `Emit.code`, `Emit.after`: the instructions that a computation appends, and the state behind it
  with the code left out.
* `Emit.Local`: computations that append. `Emit.Steady`: those that moreover keep the enclosing
  loops and scopes. `Emit.Plain`: those that change nothing but the number of slots and append no
  label, jump or return. Expressions are plain (`expression_plain`), statements are steady
  (`statement_steady`).
* `code_whileLoop`, `code_branch`, …: the shape of the code of each construct.
-/

namespace Stacklet

/-- Whether the next instruction follows behind this one, and no jump leads to it. -/
def Instr.isStraight : Instr → Bool
  | .label _ | .jump _ | .jumpIfZero _ | .ret => false
  | _ => true

namespace Emit

variable {α β : Type}

/-- The state with the code left out. -/
def State.blank (s : State) : State := { s with program := {} }

@[simp] theorem State.blank_blank (s : State) : s.blank.blank = s.blank := rfl

@[simp] theorem State.blank_nextSlot (s : State) : s.blank.nextSlot = s.nextSlot := rfl

/-- The instructions that a computation appends. -/
def code (x : Emit α) (s : State) : List Instr := (x s.blank).2.program.code.toList

/-- The state behind a computation. -/
def after (x : Emit α) (s : State) : State := (x s).2.blank

/-- A computation that appends instructions, whatever the code before them is. -/
class Local (x : Emit α) : Prop where
  result_blank : ∀ s, (x s.blank).1 = (x s).1
  after_blank : ∀ s, after x s.blank = after x s
  code_append : ∀ s, (x s).2.program.code.toList = s.program.code.toList ++ code x s

@[simp] theorem code_blank (x : Emit α) (s : State) : code x s.blank = code x s := rfl

@[simp] theorem result_blank (x : Emit α) [Local x] (s : State) : (x s.blank).1 = (x s).1 :=
  Local.result_blank s

@[simp] theorem after_blank (x : Emit α) [Local x] (s : State) : after x s.blank = after x s :=
  Local.after_blank s

@[simp] theorem blank_after (x : Emit α) (s : State) : (after x s).blank = after x s := rfl

/-! ## Sequences of computations -/

theorem bind_apply (x : Emit α) (f : α → Emit β) (s : State) : (x >>= f) s = f (x s).1 (x s).2 :=
  rfl

@[simp] theorem code_pure (a : α) (s : State) : code (pure a : Emit α) s = [] := rfl

@[simp] theorem after_pure (a : α) (s : State) : after (pure a : Emit α) s = s.blank := rfl

@[simp] theorem result_pure (a : α) (s : State) : ((pure a : Emit α) s).1 = a := rfl

instance (a : α) : Local (pure a : Emit α) where
  result_blank _ := rfl
  after_blank _ := rfl
  code_append s := (List.append_nil s.program.code.toList).symm

section Bind

variable (x : Emit α) (f : α → Emit β) [∀ a, Local (f a)] (s : State)

@[simp] theorem result_bind : ((x >>= f) s).1 = (f (x s).1 (after x s)).1 := by
  rw [bind_apply, after, result_blank]

@[simp] theorem after_bind : after (x >>= f) s = after (f (x s).1) (after x s) :=
  (after_blank (f (x s).1) (x s).2).symm

variable [Local x]

@[simp] theorem code_bind : code (x >>= f) s = code x s ++ code (f (x s).1) (after x s) := by
  rw [code, bind_apply, Local.code_append, result_blank, ← after_blank x s]
  rfl

instance : Local (x >>= f) where
  result_blank s := by rw [result_bind, result_bind, result_blank, after_blank]
  after_blank s := by rw [after_bind, after_bind, result_blank, after_blank]
  code_append s := by
    rw [bind_apply, Local.code_append, Local.code_append, code_bind, List.append_assoc]
    rfl

end Bind

@[simp] theorem code_map (g : α → β) (x : Emit α) (s : State) : code (g <$> x) s = code x s := rfl

@[simp] theorem after_map (g : α → β) (x : Emit α) (s : State) : after (g <$> x) s = after x s :=
  rfl

@[simp] theorem result_map (g : α → β) (x : Emit α) (s : State) : ((g <$> x) s).1 = g (x s).1 := rfl

instance (g : α → β) (x : Emit α) [Local x] : Local (g <$> x) where
  result_blank s := congrArg g (result_blank x s)
  after_blank := after_blank x
  code_append := Local.code_append (x := x)

/-! ## Single computations -/

@[simp] theorem code_emit (loc : Loc) (i : Instr) (s : State) : code (emit loc i) s = [i] := rfl

@[simp] theorem after_emit (loc : Loc) (i : Instr) (s : State) : after (emit loc i) s = s.blank :=
  rfl

instance (loc : Loc) (i : Instr) : Local (emit loc i) where
  result_blank _ := rfl
  after_blank _ := rfl
  code_append _ := Array.toList_push

/-- A computation that leaves the code alone and does not look at it. -/
theorem Local.of_silent {x : Emit α} (g : State → α × State)
    (h : ∀ s, (x s).1 = (g s.blank).1 ∧ (x s).2.blank = (g s.blank).2 ∧
      (x s).2.program.code = s.program.code) : Local x where
  result_blank s := by rw [(h s).1, (h s.blank).1, State.blank_blank]
  after_blank s := by
    have h₁ := (h s).2.1
    have h₂ := (h s.blank).2.1
    rw [State.blank_blank] at h₂
    exact h₂.trans h₁.symm
  code_append s := by
    have h₁ : code x s = [] := congrArg Array.toList (h s.blank).2.2
    rw [h₁, List.append_nil, (h s).2.2]

@[simp] theorem code_mention (text : String) (s : State) : code (mention text) s = [] := rfl

@[simp] theorem after_mention (text : String) (s : State) : after (mention text) s = s.blank := rfl

instance (text : String) : Local (mention text) :=
  .of_silent (fun s => ((), s)) fun _ => ⟨rfl, rfl, rfl⟩

@[simp] theorem code_freshSlot (s : State) : code freshSlot s = [] := rfl

@[simp] theorem result_freshSlot (s : State) : (freshSlot s).1 = s.nextSlot + 1 := rfl

@[simp] theorem after_freshSlot (s : State) :
    after freshSlot s = { s.blank with nextSlot := s.nextSlot + 1 } := rfl

instance : Local freshSlot :=
  .of_silent (fun s => (s.nextSlot + 1, { s with nextSlot := s.nextSlot + 1 })) fun _ =>
    ⟨rfl, rfl, rfl⟩

@[simp] theorem code_markDouble (slot : String) (s : State) : code (markDouble slot) s = [] := rfl

@[simp] theorem after_markDouble (slot : String) (s : State) :
    after (markDouble slot) s = { s.blank with doubles := slot :: s.doubles } := rfl

instance (slot : String) : Local (markDouble slot) :=
  .of_silent (fun s => ((), { s with doubles := slot :: s.doubles })) fun _ => ⟨rfl, rfl, rfl⟩

@[simp] theorem code_isDouble (slot : String) (s : State) : code (isDouble slot) s = [] := rfl

@[simp] theorem result_isDouble (slot : String) (s : State) :
    (isDouble slot s).1 = s.doubles.contains slot := rfl

@[simp] theorem after_isDouble (slot : String) (s : State) : after (isDouble slot) s = s.blank :=
  rfl

instance (slot : String) : Local (isDouble slot) :=
  .of_silent (fun s => (s.doubles.contains slot, s)) fun _ => ⟨rfl, rfl, rfl⟩

/-- The slot that a name stands for. -/
def State.slotOf (s : State) (name : String) : String := (s.slot? name).getD name

@[simp] theorem State.slotOf_blank (s : State) (name : String) :
    s.blank.slotOf name = s.slotOf name := rfl

theorem get_bind_apply (f : State → Emit β) (s : State) : ((get : Emit State) >>= f) s = f s s :=
  rfl

section Names

variable (name : String) (s : State)

theorem resolve_apply :
    resolve name s = (s.slotOf name, if (s.slot? name).isSome then s else (mention name s).2) := by
  rw [resolve, get_bind_apply, State.slotOf]
  cases s.slot? name <;> rfl

@[simp] theorem result_resolve : (resolve name s).1 = s.slotOf name := by
  rw [resolve_apply]

theorem resolve_silent :
    (resolve name s).2.blank = s.blank ∧ (resolve name s).2.program.code = s.program.code := by
  rw [resolve_apply]
  dsimp only
  split <;> exact ⟨rfl, rfl⟩

instance : Local (resolve name) :=
  .of_silent (fun s => (s.slotOf name, s)) fun s =>
    ⟨result_resolve name s, resolve_silent name s⟩

@[simp] theorem after_resolve : after (resolve name) s = s.blank :=
  (resolve_silent name s).1

@[simp] theorem code_resolve : code (resolve name) s = [] :=
  congrArg Array.toList (resolve_silent name s.blank).2

end Names

instance : Local hiddenSlot := by unfold hiddenSlot; infer_instance

@[simp] theorem code_hiddenSlot (s : State) : code hiddenSlot s = [] := rfl

@[simp] theorem result_hiddenSlot (s : State) :
    (hiddenSlot s).1 = "#t" ++ Number.decimal (s.nextSlot + 1 : Nat) := rfl

@[simp] theorem after_hiddenSlot (s : State) :
    after hiddenSlot s = { s.blank with nextSlot := s.nextSlot + 1 } := rfl

/-! ## Expressions -/

/-- A computation that changes nothing but the number of slots and appends straight code. -/
class Plain (x : Emit α) : Prop extends Local x where
  after_eq : ∀ s, ∃ k, s.nextSlot ≤ k ∧ after x s = { s.blank with nextSlot := k }
  straight : ∀ s, ∀ i ∈ code x s, i.isStraight

instance (a : α) : Plain (pure a : Emit α) where
  after_eq s := ⟨s.nextSlot, Nat.le_refl _, rfl⟩
  straight s := by simp

instance (x : Emit α) (f : α → Emit β) [Plain x] [∀ a, Plain (f a)] : Plain (x >>= f) where
  after_eq s := by
    obtain ⟨k, hk, h⟩ := Plain.after_eq (x := x) s
    obtain ⟨k', hk', h'⟩ := Plain.after_eq (x := f (x s).1) (after x s)
    refine ⟨k', ?_, ?_⟩
    · rw [h] at hk'
      exact Nat.le_trans hk hk'
    · rw [after_bind, h', h]
      rfl
  straight s := by
    rw [code_bind]
    intro i hi
    rcases List.mem_append.mp hi with hi | hi
    · exact Plain.straight s i hi
    · exact Plain.straight _ i hi

theorem Plain.of_after {x : Emit α} [Local x] (ha : ∀ s, after x s = s.blank)
    (hc : ∀ s, ∀ i ∈ code x s, i.isStraight) : Plain x where
  after_eq s := ⟨s.nextSlot, Nat.le_refl _, ha s⟩
  straight := hc

theorem Plain.emit {i : Instr} (loc : Loc) (h : i.isStraight) : Plain (emit loc i) :=
  .of_after (fun _ => rfl) fun s j hj => by
    rw [code_emit, List.mem_singleton] at hj
    rwa [hj]

instance (text : String) : Plain (mention text) := .of_after (fun _ => rfl) fun s => by simp

instance (slot : String) : Plain (isDouble slot) := .of_after (fun _ => rfl) fun s => by simp

instance (name : String) : Plain (resolve name) :=
  .of_after (after_resolve name) fun s => by simp

instance : Plain hiddenSlot where
  after_eq s := ⟨s.nextSlot + 1, Nat.le_succ _, rfl⟩
  straight s := by simp

instance (loc : Loc) (d : Demand) : Plain (settle loc d) := by
  unfold settle
  split
  · exact .emit loc rfl
  · infer_instance

instance (loc : Loc) (op : String) : Plain (unaryOp loc op) := by
  unfold unaryOp
  split
  · exact .emit loc rfl
  · exact .emit loc rfl
  · infer_instance

theorem isStraight_literal (text : String) (d : Demand) : (literal text d).isStraight := by
  unfold literal
  split <;> rfl

theorem returnsValue_apply (f : String) (s : State) :
    returnsValue f s = ((match Builtin.ofName? f with
      | some b => b.returns != .void
      | none => s.valued.contains f), s) := by
  unfold returnsValue
  cases Builtin.ofName? f <;> rfl

instance (f : String) : Local (returnsValue f) :=
  .of_silent (returnsValue f) fun s => by
    rw [returnsValue_apply, returnsValue_apply]
    exact ⟨rfl, rfl, rfl⟩

@[simp] theorem code_returnsValue (f : String) (s : State) : code (returnsValue f) s = [] := by
  rw [code, returnsValue_apply]
  rfl

@[simp] theorem after_returnsValue (f : String) (s : State) :
    after (returnsValue f) s = s.blank := by
  rw [after, returnsValue_apply]

instance (f : String) : Plain (returnsValue f) := .of_after (after_returnsValue f) fun s => by simp

instance (p : Prop) [Decidable p] (x y : Emit α) [Plain x]
    [Plain y] : Plain (if p then x else y) := by
  split <;> infer_instance

mutual

theorem expression_plain : ∀ (t : Tree) (d : Demand), Plain (expression t d)
  | ⟨kind, text, _, loc, children⟩, d => by
    have he : ∀ {i : Instr}, i.isStraight → Plain (emit loc i) := Plain.emit loc
    have hpush : ∀ n, Plain (emit loc (.pushInt n)) := fun _ => he rfl
    have hload : ∀ x, Plain (emit loc (.load x)) := fun _ => he rfl
    have hstore : ∀ x, Plain (emit loc (.store x)) := fun _ => he rfl
    have hitem : ∀ x, Plain (emit loc (.storeIndex x)) := fun _ => he rfl
    have hpop : Plain (emit loc .pop) := he rfl
    unfold expression
    cases kind with
    | number =>
      have := he (isStraight_literal text d)
      infer_instance
    | string =>
      have : Plain (emit loc (.pushString text)) := he rfl
      infer_instance
    | identifier => infer_instance
    | unary =>
      cases children with
      | nil => infer_instance
      | cons t ts =>
        have := fun d => expression_plain t d
        infer_instance
    | binary =>
      have := values_plain children
      have : Plain (emit loc (.binary (.ofText text))) := he rfl
      infer_instance
    | comma => exact sequence_plain children d.plain
    | assign =>
      dsimp only
      split
      · next value _ =>
        have := fun d => expression_plain value d
        infer_instance
      · next i _ value _ =>
        have := fun d => expression_plain value d
        have := fun d => expression_plain i d
        infer_instance
      · infer_instance
      · next value _ _ _ _ => exact expression_plain value d.plain
      · infer_instance
    | call =>
      cases children with
      | nil => infer_instance
      | cons f args =>
        have := values_plain args
        have : Plain (emit loc (.call f.text)) := he rfl
        infer_instance
    | index =>
      have := values_plain children
      have : Plain (emit loc .loadIndex) := he rfl
      infer_instance
    | _ => infer_instance

theorem values_plain : ∀ ts : List Tree, Plain (values ts)
  | [] => by unfold values; infer_instance
  | t :: ts => by
    have := expression_plain t .value
    have := values_plain ts
    unfold values
    infer_instance

theorem sequence_plain : ∀ (ts : List Tree) (d : Demand), Plain (sequence ts d)
  | [], d => by unfold sequence; infer_instance
  | [t], d => by
    have := expression_plain t d
    unfold sequence
    infer_instance
  | t :: t' :: ts, d => by
    have := expression_plain t .effect
    have := sequence_plain (t' :: ts) d
    unfold sequence
    infer_instance

end

instance (t : Tree) (d : Demand) : Plain (expression t d) := expression_plain t d

instance (ts : List Tree) : Plain (values ts) := values_plain ts

/-! ## Labels, variables and scopes -/

def State.labelNumber (s : State) : Nat := freshNumber s.functions s.functions.length s.nextLabel

def State.label (s : State) : String := labelText s.labelNumber

def State.labelled (s : State) : State := { s.blank with nextLabel := s.labelNumber + 1 }

@[simp] theorem code_freshLabel (s : State) : code freshLabel s = [] := rfl

@[simp] theorem result_freshLabel (s : State) : (freshLabel s).1 = s.label := rfl

@[simp] theorem after_freshLabel (s : State) : after freshLabel s = s.labelled := rfl

instance : Local freshLabel :=
  .of_silent (fun s => (s.label, s.labelled)) fun _ => ⟨rfl, rfl, rfl⟩

/-- The slot of a variable that is declared next. -/
def State.newSlot (s : State) (name : String) : String :=
  if (s.slot? name).isSome then name ++ "#" ++ Number.decimal (s.nextSlot + 1 : Nat) else name

/-- The state with one more variable. -/
def State.declared (s : State) (name : String) : State :=
  { s.blank with nextSlot := if (s.slot? name).isSome then s.nextSlot + 1 else s.nextSlot }.bind
    name
    (s.newSlot name)

section Declare

variable (name : String) (s : State)

theorem declare_apply :
    (declare name s).1 = s.newSlot name ∧ (declare name s).2.blank = s.declared name ∧
      (declare name s).2.program.code = s.program.code := by
  rw [declare, get_bind_apply, State.declared, State.newSlot]
  cases s.slot? name with
  | none => exact ⟨rfl, rfl, rfl⟩
  | some slot => exact ⟨rfl, rfl, rfl⟩

instance : Local (declare name) :=
  .of_silent (fun s => (s.newSlot name, s.declared name)) (declare_apply name)

@[simp] theorem code_declare : code (declare name) s = [] :=
  congrArg Array.toList (declare_apply name s.blank).2.2

@[simp] theorem result_declare : (declare name s).1 = s.newSlot name :=
  (declare_apply name s).1

@[simp] theorem after_declare : after (declare name) s = s.declared name :=
  (declare_apply name s).2.1

end Declare

def State.enter (s : State) : State := { s with scopes := [] :: s.scopes }

def State.leave (s : State) : State := { s with scopes := s.scopes.tail }

def State.within (s : State) (labels : LoopLabels) : State := { s with loops := labels :: s.loops }

def State.past (s : State) : State := { s with loops := s.loops.tail }

@[simp] theorem State.blank_past (s : State) : s.past.blank = s.blank.past := rfl

section Bodies

variable (x : Emit Unit)

@[simp] theorem code_inScope (s : State) : code (inScope x) s = code x s.enter := rfl

@[simp] theorem after_inScope (s : State) : after (inScope x) s = (after x s.enter).leave := rfl

@[simp] theorem code_inLoop (labels : LoopLabels) (s : State) :
    code (inLoop labels x) s = code x (s.within labels) := rfl

@[simp] theorem after_inLoop (labels : LoopLabels) (s : State) :
    after (inLoop labels x) s = (after x (s.within labels)).past := rfl

variable [Local x]

instance : Local (inScope x) where
  result_blank _ := rfl
  after_blank s := congrArg State.leave (after_blank x s.enter)
  code_append s := Local.code_append (x := x) s.enter

instance (labels : LoopLabels) : Local (inLoop labels x) where
  result_blank _ := rfl
  after_blank s := congrArg State.past (after_blank x (s.within labels))
  code_append s := Local.code_append (x := x) (s.within labels)

end Bodies

/-! ## Steady computations -/

/-- What statements keep: all but the innermost scope and the numbers of labels and slots, which
grow. -/
structure State.Extends (s s' : State) : Prop where
  functions_eq : s'.functions = s.functions
  valued_eq : s'.valued = s.valued
  loops_eq : s'.loops = s.loops
  returnType_eq : s'.returnType = s.returnType
  tail_eq : s'.scopes.tail = s.scopes.tail
  label_le : s.nextLabel ≤ s'.nextLabel
  slot_le : s.nextSlot ≤ s'.nextSlot

theorem State.Extends.refl (s : State) : s.Extends s.blank :=
  ⟨rfl, rfl, rfl, rfl, rfl, Nat.le_refl _, Nat.le_refl _⟩

theorem State.Extends.trans {s s' s'' : State} (h : s.Extends s') (h' : s'.Extends s'') :
    s.Extends s'' where
  functions_eq := h'.functions_eq.trans h.functions_eq
  valued_eq := h'.valued_eq.trans h.valued_eq
  loops_eq := h'.loops_eq.trans h.loops_eq
  returnType_eq := h'.returnType_eq.trans h.returnType_eq
  tail_eq := h'.tail_eq.trans h.tail_eq
  label_le := Nat.le_trans h.label_le h'.label_le
  slot_le := Nat.le_trans h.slot_le h'.slot_le

/-- A computation that keeps the loops and the scopes around it. -/
class Steady (x : Emit α) : Prop extends Local x where
  extend : ∀ s : State, s.Extends (after x s)

instance (x : Emit α) [Plain x] : Steady x where
  extend s := by
    obtain ⟨k, hk, h⟩ := Plain.after_eq (x := x) s
    rw [h]
    exact ⟨rfl, rfl, rfl, rfl, rfl, Nat.le_refl _, hk⟩

instance (x : Emit α) (f : α → Emit β) [Steady x] [∀ a, Steady (f a)] : Steady (x >>= f) where
  extend s := by
    rw [after_bind]
    exact (Steady.extend s).trans (Steady.extend _)

theorem Steady.of_after {x : Emit α} [Local x] (h : ∀ s, after x s = s.blank) : Steady x where
  extend s := by
    rw [h]
    exact .refl s

instance (loc : Loc) (i : Instr) : Steady (emit loc i) := .of_after fun _ => rfl

theorem le_freshNumber (taken : List String) (k n : Nat) : n ≤ freshNumber taken k n := by
  induction k generalizing n with
  | zero => exact Nat.le_refl n
  | succ k ih =>
    rw [freshNumber]
    split
    · exact Nat.le_of_succ_le (ih (n + 1))
    · exact Nat.le_refl n

theorem extends_labelled (s : State) : s.Extends s.labelled :=
  ⟨rfl, rfl, rfl, rfl, rfl, Nat.le_succ_of_le (le_freshNumber _ _ _), Nat.le_refl _⟩

instance : Steady freshLabel := ⟨extends_labelled⟩

theorem extends_declared (s : State) (name : String) : s.Extends (s.declared name) := by
  have hle : s.nextSlot ≤ if (s.slot? name).isSome then s.nextSlot + 1 else s.nextSlot := by
    split
    · exact Nat.le_succ _
    · exact Nat.le_refl _
  exact ⟨rfl, rfl, rfl, rfl, List.tail_modifyHead .., Nat.le_refl _, hle⟩

instance (name : String) : Steady (declare name) where
  extend s := by
    rw [after_declare]
    exact extends_declared s name

instance (slot : String) : Steady (markDouble slot) where
  extend _ := ⟨rfl, rfl, rfl, rfl, rfl, Nat.le_refl _, Nat.le_refl _⟩

instance (x : Emit Unit) [Steady x] : Steady (inScope x) where
  extend s := by
    have h : s.enter.Extends (after x s.enter) := Steady.extend _
    exact ⟨h.functions_eq, h.valued_eq, h.loops_eq, h.returnType_eq, congrArg List.tail h.tail_eq,
      h.label_le, h.slot_le⟩

instance (x : Emit Unit) (labels : LoopLabels) [Steady x] : Steady (inLoop labels x) where
  extend s := by
    have h : (s.within labels).Extends (after x (s.within labels)) := Steady.extend _
    exact ⟨h.functions_eq, h.valued_eq, congrArg List.tail h.loops_eq, h.returnType_eq, h.tail_eq,
      h.label_le, h.slot_le⟩

instance (p : Prop) [Decidable p] (x y : Emit α) [Steady x]
    [Steady y] : Steady (if p then x else y) := by
  split <;> infer_instance

instance (f : β → Emit Unit) (l : List β) [∀ b, Steady (f b)] : Steady (l.forM f) := by
  induction l with
  | nil => exact inferInstanceAs (Steady (pure ()))
  | cons b l ih => exact inferInstanceAs (Steady (f b >>= fun _ => l.forM f))

end Emit

end Stacklet
