import Stacklet.Proofs.Simulation.Frame
/-!
# Evaluations and runs

* `Machine.At`: where code stands in a program.
* `Machine.conf`: a state of the machine in the world of an evaluation.
* `Sim`: a run does what an evaluation does. If the evaluation gives a value, the run comes to a
  state that belongs to it; if a stream fails, it fails in the run too; and if the evaluation is cut
  off, the run goes on for as many steps.
* `Computes`: code that leaves on the stack what an evaluation gives.
-/

namespace Stacklet

namespace Machine

variable {m : Machine} {pc : Nat} {i : Instr} {c c' : List Instr}

/-- The instructions stand at the index `pc`. -/
def At (m : Machine) (pc : Nat) (instrs : List Instr) : Prop :=
  ∀ (k : Nat) (i : Instr), instrs[k]? = some i → m.program.code[pc + k]? = some i

namespace At

theorem of_append (h : m.At pc (c ++ c')) : m.At pc c ∧ m.At (pc + c.length) c' := by
  refine ⟨fun k i hk => h k i ?_, fun k i hk => ?_⟩
  · rwa [List.getElem?_append_left (List.getElem?_eq_some_iff.mp hk).1]
  · rw [Nat.add_assoc]
    refine h (c.length + k) i ?_
    rwa [List.getElem?_append_right (Nat.le_add_right _ _), Nat.add_sub_cancel_left]

theorem of_cons (h : m.At pc (i :: c)) : m.program.code[pc]? = some i ∧ m.At (pc + 1) c :=
  ⟨h 0 i rfl, (of_append (c := [i]) h).2⟩

theorem of_toList {before behind : List Instr} (h : m.program.code.toList = before ++ c ++ behind) :
    m.At before.length c := by
  intro k i hk
  rw [← Array.getElem?_toList, h, List.append_assoc, List.getElem?_append_right
    (Nat.le_add_right _ _),
    Nat.add_sub_cancel_left, List.getElem?_append_left (List.getElem?_eq_some_iff.mp hk).1]
  exact hk

end At

/-- A state in the world of an evaluation. -/
def conf (ip : Nat) (stack : List Value) (L : Locals) (callers : List Suspended)
    (σ : Store) : State :=
  { ip, stack, locals := L, callers, toWorld := σ.toWorld }

theorem step_of_getElem? {s : State} (h : m.program.code[s.ip]? = some i) :
    m.step s = m.execute s i := by
  rw [step, h]

section Leaps

variable {ip : Nat} {S : List Value} {L : Locals} {C : List Suspended} {σ : Store} {l : String}

theorem step_label (hi : m.program.code[pc]? = some (.label l)) :
    m.step (conf pc S L C σ) = .next (conf (pc + 1) S L C σ) :=
  step_of_getElem? (s := conf pc S L C σ) hi

theorem step_jump (hi : m.program.code[pc]? = some (.jump l)) (hl : m.target? l = some ip) :
    m.step (conf pc S L C σ) = .next (conf ip S L C σ) := by
  rw [step_of_getElem? (s := conf pc S L C σ) hi, execute, State.goto, hl]
  rfl

theorem step_call (hi : m.program.code[pc]? = some (.call l)) (hb : Builtin.ofName? l = none)
    (hl : m.target? l = some ip) :
    m.step (conf pc S L C σ) = .next (conf ip S [] (⟨pc + 1, L⟩ :: C) σ) := by
  rw [step_of_getElem? (s := conf pc S L C σ) hi, execute, hb]
  dsimp only
  rw [callFunction, hl]
  rfl

theorem step_ret (hi : m.program.code[pc]? = some .ret) (caller : Suspended) :
    m.step (conf pc S L (caller :: C) σ) = .next (conf caller.returnTo S caller.locals C σ) :=
  step_of_getElem? (s := conf pc S L (caller :: C) σ) hi

theorem step_ret_nil (hi : m.program.code[pc]? = some .ret) :
    m.step (conf pc S L [] σ) = .halt (conf pc S L [] σ) :=
  step_of_getElem? (s := conf pc S L [] σ) hi

end Leaps

/-- The run takes more than `n` steps. -/
def Lasts (m : Machine) (n : Nat) (s : State) : Prop := m.runFrom n s = none

theorem Lasts.succ {n : Nat} {s s' : State} (hs : m.step s = .next s') (h : m.Lasts n s') :
    m.Lasts (n + 1) s :=
  (runFrom_next hs n).trans h

theorem Lasts.of_succ {n : Nat} {s : State} (h : m.Lasts (n + 1) s) : m.Lasts n s := by
  induction n generalizing s with
  | zero => rfl
  | succ n ih =>
    cases hs : m.step s with
    | next s' => exact .succ hs (ih ((runFrom_next hs (n + 1)).symm.trans h))
    | halt | fault =>
      rw [Lasts, runFrom, hs] at h
      cases h

theorem Lasts.mono {k n : Nat} {s : State} (h : m.Lasts n s) (hk : k ≤ n) : m.Lasts k s := by
  induction hk with
  | refl => exact h
  | step _ ih => exact ih h.of_succ

theorem Lasts.of_steps {n : Nat} {s s' : State} (hs : m.Steps s s') (h : m.Lasts n s') :
    m.Lasts n s := by
  induction hs using Relation.ReflTransGen.head_induction_on with
  | refl => exact h
  | head hs _ ih => exact (ih.succ hs).of_succ

end Machine

open Machine (conf)

namespace Eval

variable {α β : Type} {x : Eval α} {f : α → Eval β} {σ σ' : Store}

theorem bind_of_none (h : x σ = none) : (x >>= f) σ = none := by simp [Bind.bind, h]

theorem bind_of_error {e : StreamError} (h : x σ = some (.error e, σ')) :
    (x >>= f) σ = some (.error e, σ') := by
  simp [Bind.bind, h]

theorem bind_of_ok {a : α} (h : x σ = some (.ok a, σ')) :
    (x >>= f) σ = f a σ' := by simp [Bind.bind, h]

theorem exists_of_bind {b : β} (h : (x >>= f) σ = some (.ok b, σ')) :
    ∃ a σ₁, x σ = some (.ok a, σ₁) ∧ f a σ₁ = some (.ok b, σ') := by
  cases hx : x σ with
  | none => cases (bind_of_none hx).symm.trans h
  | some r =>
    obtain ⟨e | a, σ₁⟩ := r
    · cases (bind_of_error hx).symm.trans h
    · exact ⟨a, σ₁, rfl, (bind_of_ok hx).symm.trans h⟩

end Eval

/-! ## Runs that do what an evaluation does -/

/-- From `s` on the machine does what an evaluation comes to. The states that belong to a value are
given by `Q`. -/
def Sim {α : Type} (m : Machine) (n : Nat) (s : Machine.State)
    (o : Option (Except StreamError α × Store)) (Q : α → Store → Machine.State → Prop) : Prop :=
  match o with
  | some (.ok a, σ) => ∃ s', m.Steps s s' ∧ Q a σ s'
  | some (.error e, σ) =>
    ∃ s' last, m.Steps s s' ∧ m.step s' = .fault (.stream e) last ∧ last.toWorld = σ.toWorld
  | none => m.Lasts n s

namespace Sim

variable {α β : Type} {m : Machine} {n k : Nat} {s s' : Machine.State}
  {o : Option (Except StreamError α × Store)}
  {Q : α → Store → Machine.State → Prop} {R : β → Store → Machine.State → Prop}

theorem pure {a : α} {σ : Store} (h : Q a σ s) : Sim m n s ((Pure.pure a : Eval α) σ) Q :=
  ⟨s, .refl, h⟩

theorem of_steps (hs : m.Steps s s') (h : Sim m n s' o Q) : Sim m n s o Q := by
  match o, h with
  | some (.ok _, _), ⟨s'', hsteps, hq⟩ => exact ⟨s'', hs.trans hsteps, hq⟩
  | some (.error _, _), ⟨s'', last, hsteps, hend⟩ => exact ⟨s'', last, hs.trans hsteps, hend⟩
  | none, h => exact Machine.Lasts.of_steps hs h

theorem bind {x : Eval α} {f : α → Eval β} {σ : Store} (h : Sim m n s (x σ) Q)
    (hf : ∀ a σ' s', x σ = some (.ok a, σ') → Q a σ' s' → Sim m n s' (f a σ') R) :
    Sim m n s ((x >>= f) σ) R := by
  match hx : x σ, h with
  | some (.ok a, σ'), ⟨s', hsteps, hq⟩ =>
    rw [Eval.bind_of_ok hx]
    exact .of_steps hsteps (hf a σ' s' hx hq)
  | some (.error e, σ'), h =>
    rw [Eval.bind_of_error hx]
    exact h
  | none, h =>
    rw [Eval.bind_of_none hx]
    exact h

theorem onward {Q' : α → Store → Machine.State → Prop} (h : Sim m n s o Q)
    (hq : ∀ a σ s, Q a σ s → ∃ s', m.Steps s s' ∧ Q' a σ s') : Sim m n s o Q' := by
  match o, h with
  | some (.ok a, σ), ⟨s', hsteps, h⟩ =>
    obtain ⟨s'', hmore, h'⟩ := hq a σ s' h
    exact ⟨s'', hsteps.trans hmore, h'⟩
  | some (.error _, _), h => exact h
  | none, h => exact h

theorem imp {Q' : α → Store → Machine.State → Prop} (h : Sim m n s o Q)
    (hq : ∀ a σ s, Q a σ s → Q' a σ s) :
    Sim m n s o Q' :=
  h.onward fun a σ s h => ⟨s, .refl, hq a σ s h⟩

theorem map_env {Q' : α → Store → Machine.State → Prop} {g : Store → Store}
    (hg : ∀ σ, (g σ).toWorld = σ.toWorld) (h : Sim m n s o Q)
    (hq : ∀ a σ s, Q a σ s → Q' a (g σ) s) : Sim m n s (o.map fun (r, σ) => (r, g σ)) Q' := by
  match o, h with
  | some (.ok a, σ), ⟨s', hsteps, h⟩ => exact ⟨s', hsteps, hq a σ s' h⟩
  | some (.error _, σ), ⟨s', last, hsteps, hend, hworld⟩ =>
    exact ⟨s', last, hsteps, hend, hworld.trans (hg σ).symm⟩
  | none, h => exact h

theorem mono (h : Sim m n s o Q) (hk : k ≤ n) : Sim m k s o Q := by
  match o, h with
  | some (.ok _, _), h => exact h
  | some (.error _, _), h => exact h
  | none, h => exact Machine.Lasts.mono h hk

theorem succ (hs : m.step s = .next s') (h : Sim m n s' o Q) : Sim m (n + 1) s o Q := by
  match o, h with
  | some (.ok _, _), ⟨s'', hsteps, hq⟩ => exact ⟨s'', .head hs hsteps, hq⟩
  | some (.error _, _), ⟨s'', last, hsteps, hend⟩ => exact ⟨s'', last, .head hs hsteps, hend⟩
  | none, h => exact Machine.Lasts.succ hs h

theorem instr {i : Instr} (hi : m.program.code[s.ip]? = some i) (hs : m.execute s i = .next s')
    (h : Sim m n s' o Q) :
    Sim m n s o Q :=
  of_steps (.single ((Machine.step_of_getElem? hi).trans hs)) h

section Instructions

variable {pc ip : Nat} {S : List Value} {L : Locals} {C : List Machine.Suspended} {σ : Store}
  {x l : String}
  {v w : Value}

theorem load (hi : m.program.code[pc]? = some (.load x))
    (h : Sim m n (conf (pc + 1) (L.load x :: S) L C σ) o Q) :
    Sim m n (conf pc S L C σ) o Q := instr hi rfl h

theorem store (hi : m.program.code[pc]? = some (.store x))
    (h : Sim m n (conf (pc + 1) S (L.store x v) C σ) o Q) :
    Sim m n (conf pc (v :: S) L C σ) o Q := instr hi rfl h

theorem storeIndex (hi : m.program.code[pc]? = some (.storeIndex x))
    (h : Sim m n (conf (pc + 1) S (L.storeIndex x v.toInt w) C σ) o Q) :
    Sim m n (conf pc (v :: w :: S) L C σ) o Q :=
  instr hi rfl h

theorem label (hi : m.program.code[pc]? = some (.label l))
    (h : Sim m n (conf (pc + 1) S L C σ) o Q) :
    Sim m n (conf pc S L C σ) o Q := of_steps (.single (Machine.step_label hi)) h

theorem jump (hi : m.program.code[pc]? = some (.jump l)) (hl : m.target? l = some ip)
    (h : Sim m n (conf ip S L C σ) o Q) : Sim m n (conf pc S L C σ) o Q :=
  of_steps (.single (Machine.step_jump hi hl)) h

theorem jumpIfZero (hi : m.program.code[pc]? = some (.jumpIfZero l)) (hl : m.target? l = some ip)
    (h : Sim m n (conf (if v.isZero then ip else pc + 1) S L C σ) o Q) :
    Sim m n (conf pc (v :: S) L C σ) o Q := by
  refine instr hi ?_ h
  rw [Machine.execute, conf]
  dsimp only
  split
  · rw [Machine.State.goto, hl]
    rfl
  · rfl

end Instructions

end Sim

/-! ## Code that computes a value -/

/-- Hidden slots with numbers up to `k` keep what they hold. -/
def Locals.KeepsHidden (k : Nat) (L L' : Locals) : Prop :=
  ∀ j, j ≤ k → L'.load (Slot.hidden j).text = L.load (Slot.hidden j).text

/-- Code that does what an evaluation does, in one call and with the variables of `Δ`. It finds the
stack `S`, and leaves it as `T` says. Hidden slots up to `k` are not touched. -/
def Computes {α : Type} (m : Machine) (n : Nat) (Δ : Frame) (k : Nat) (c : List Instr) (x : Eval α)
    (S : List Value) (T : α → List Value) : Prop :=
  ∀ (pc : Nat) (L : Locals) (C : List Machine.Suspended) (σ : Store), m.At pc c → σ.env = Δ.env L →
    Sim m n (conf pc S L C σ) (x σ) fun a σ' s' =>
      ∃ L', s' = conf (pc + c.length) (T a) L' C σ' ∧ σ'.env = Δ.env L' ∧ L.KeepsHidden k L'

namespace Computes

variable {α β : Type} {m : Machine} {n k k' : Nat} {Δ : Frame} {c c' : List Instr} {x : Eval α}
  {f : α → Eval β}
  {S : List Value} {T : α → List Value} {U : β → List Value}

theorem le (h : Computes m n Δ k' c x S T) (hk : k ≤ k') : Computes m n Δ k c x S T := by
  intro pc L C σ hat henv
  refine (h pc L C σ hat henv).imp fun a σ' s' => ?_
  rintro ⟨L', hs, henv', hkeep⟩
  exact ⟨L', hs, henv', fun j hj => hkeep j (Nat.le_trans hj hk)⟩

theorem bind_of {P : α → Prop} (h : Computes m n Δ k c x S T)
    (hP : ∀ σ a σ', x σ = some (.ok a, σ') → P a)
    (hf : ∀ a, P a → Computes m n Δ k c' (f a) (T a) U) :
    Computes m n Δ k (c ++ c') (x >>= f) S U := by
  intro pc L C σ hat henv
  obtain ⟨hat₁, hat₂⟩ := hat.of_append
  refine (h pc L C σ hat₁ henv).bind fun a σ₁ s₁ hx => ?_
  rintro ⟨L₁, rfl, henv₁, hkeep₁⟩
  refine (hf a (hP σ a σ₁ hx) _ L₁ C σ₁ hat₂ henv₁).imp fun b σ₂ s₂ => ?_
  rintro ⟨L₂, rfl, henv₂, hkeep₂⟩
  refine ⟨L₂, ?_, henv₂, fun j hj => (hkeep₂ j hj).trans (hkeep₁ j hj)⟩
  rw [List.length_append, Nat.add_assoc]

theorem bind (h : Computes m n Δ k c x S T) (hf : ∀ a, Computes m n Δ k c' (f a) (T a) U) :
    Computes m n Δ k (c ++ c') (x >>= f) S U :=
  h.bind_of (P := fun _ => True) (fun _ _ _ _ => trivial) fun a _ => hf a

theorem andThen {U : α → List Value} (h : Computes m n Δ k c x S T)
    (hf : ∀ a, Computes m n Δ k c' (pure a) (T a) U) :
    Computes m n Δ k (c ++ c') x S U := by
  have hx : (x >>= pure) = x := by
    funext σ
    match hx : x σ with
    | some (.ok _, _) => exact Eval.bind_of_ok hx
    | some (.error _, _) => exact Eval.bind_of_error hx
    | none => exact Eval.bind_of_none hx
  exact hx ▸ h.bind hf

theorem nil {a : α} (hT : T a = S) : Computes m n Δ k [] (pure a) S T := by
  intro pc L C σ _ henv
  exact .pure ⟨L, by rw [hT]; rfl, henv, fun _ _ => rfl⟩

theorem one {i : Instr} {a : α}
    (hs : ∀ pc L C σ, m.execute (conf pc S L C σ) i = .next (conf (pc + 1) (T a) L C σ)) :
    Computes m n Δ k [i] (pure a) S T := by
  intro pc L C σ hat henv
  refine .instr hat.of_cons.1 (hs pc L C σ) ?_
  exact .pure ⟨L, rfl, henv, fun _ _ => rfl⟩

end Computes

end Stacklet
