import Stacklet.Proofs.Simulation.Expression
/-!
# Statements do what they mean

* `Lands`: where the code of a statement leads, for each way in which the statement can end.
* `Performs`: code that does what a statement does. `performs_return`, `Rounds.performs`, …: rules
  for constructs.
* `Typed.performs`: the code of a typed statement performs it.
-/

namespace Stacklet

open Machine (conf)
open List
open Stacklet.Tree

variable {loop : Bool} {c : List Instr} {S : List Value} {s : Machine.State} {k next target : Nat}
  {done l : String} {t : Tree} {ty : Ty} {α : Type}

/-! ## Where statements lead -/

/-- Where `break` and `continue` lead. -/
structure Exits where
  breakTo : Nat
  continueTo : Nat

/-- The variables are those of a frame. -/
def Frame.Holds (Δ : Frame) (σ : Store) (L : Locals) : Prop := σ.env = Δ.env L

/-- The variables are those of a frame, but for the innermost scope. -/
def Frame.HoldsOuter (Δ : Frame) (σ : Store) (L : Locals) : Prop := σ.env.tail = Frame.env Δ.tail L

theorem Frame.Holds.outer {Δ : Frame} {σ : Store} {L : Locals} (h : Δ.Holds σ L) :
    Δ.HoldsOuter σ L := by
  rw [HoldsOuter, show σ.env = Δ.env L from h, env, env, view, view, map_tail]

/-- The states that belong to the end of a statement: `next` if it ends normally, and else the exits
of the loop around, or a return with its value on the stack. -/
def Lands (m : Machine) (E : Exits) (loop : Bool) (S : List Value) (C : List Machine.Suspended)
    (inside behind : Store → Locals → Prop) (next : Nat) : Completion → Store → Machine.State → Prop
  | .normal, σ, s => ∃ L, s = conf next S L C σ ∧ behind σ L
  | .broke, σ, s => loop = true ∧ ∃ L, s = conf E.breakTo S L C σ ∧ inside σ L
  | .continued, σ, s => loop = true ∧ ∃ L, s = conf E.continueTo S L C σ ∧ inside σ L
  | .returned v, σ, s => ∃ j L, m.program.code[j]? = some .ret ∧ s = conf j (v :: S) L C σ

/-- Code that does what a statement does. It starts with the variables of `Δ` and leads to those of
`Δ'` behind it. Code that ends in a return leads nowhere behind it. -/
def Performs (m : Machine) (n : Nat) (E : Exits) (loop : Bool) (inside : Store → Locals → Prop)
    (Δ Δ' : Frame) (c : List Instr) (x : Eval Completion) : Prop :=
  ∀ (pc : Nat) (S : List Value) (L : Locals) (C : List Machine.Suspended) (σ : Store), m.At pc c →
    Δ.Holds σ L →
    Sim m n (conf pc S L C σ) (x σ)
      (Lands m E loop S C inside (fun σ L => Emit.endsInRet c = false ∧ Δ'.Holds σ L)
        (pc + c.length))

/-- Code that goes on behind itself if a test holds, and to `target` if not. -/
def Tests (m : Machine) (n : Nat) (Δ : Frame) (target : Nat) (c : List Instr)
    (x : Eval Bool) : Prop :=
  ∀ (pc : Nat) (S : List Value) (L : Locals) (C : List Machine.Suspended) (σ : Store), m.At pc c →
    Δ.Holds σ L →
    Sim m n (conf pc S L C σ) (x σ) fun b σ' s' =>
      ∃ L', s' = conf (if b then pc + c.length else target) S L' C σ' ∧ Δ.Holds σ' L'

/-- Code for alternatives. Each of them leads to `target`, which stands behind the code. -/
def Chooses (m : Machine) (n : Nat) (E : Exits) (loop : Bool) (Δ : Frame) (target : Nat)
    (c : List Instr) (x : Eval Completion) : Prop :=
  ∀ (pc : Nat) (S : List Value) (L : Locals) (C : List Machine.Suspended) (σ : Store), m.At pc c →
    Δ.Holds σ L →
    pc + c.length = target → Sim m n (conf pc S L C σ) (x σ)
      (Lands m E loop S C Δ.Holds Δ.Holds target)

/-- Labels are where they are placed. -/
def Machine.Resolves (m : Machine) : Prop :=
  ∀ (j : Nat) (l : String), m.program.code[j]? = some (.label l) →
  m.target? l = some j

namespace Emit

theorem endsInRet_append {c' : List Instr} (h : endsInRet c = false) (h' : endsInRet c' = false) :
    endsInRet (c ++ c') = false := by
  unfold endsInRet at *
  rw [getLast?_append]
  cases hlast : c'.getLast? with
  | none => exact h
  | some i => rwa [hlast] at h'

theorem endsInRet_of_forall (h : ∀ i ∈ c, i.isRet = false) : endsInRet c = false := by
  unfold endsInRet
  cases hlast : c.getLast? with
  | none => rfl
  | some i => exact h i (mem_of_getLast? hlast)

theorem endsInRet_of_label (h : [.label l] <:+ c) : endsInRet c = false := by
  obtain ⟨before, rfl⟩ := h
  exact endsInRet_concat before _

theorem endsInRet_of_straight (x : Emit α) [Plain x] (s : State) :
    endsInRet (code x s) = false := by
  refine endsInRet_of_forall fun i hi => ?_
  have hstraight := Plain.straight (x := x) s i hi
  cases i with
  | ret => cases hstraight
  | _ => rfl

end Emit

/-! ## Rules -/

section Rules

variable {m : Machine} {n : Nat} {E : Exits} {loop : Bool} {Δ Δ₁ Δ' : Frame} {c c' : List Instr}
  {x y : Eval Completion}
  {inside inside' : Store → Locals → Prop}

open Emit

theorem Lands.imp {C : List Machine.Suspended} {behind behind' : Store → Locals → Prop}
    {completion : Completion} {σ σ' : Store}
    (h : Lands m E loop S C inside behind next completion σ s)
    (hconf : ∀ ip S L C, conf ip S L C σ = conf ip S L C σ') (hin : ∀ L, inside σ L → inside' σ' L)
    (hbehind : ∀ L, behind σ L → behind' σ' L) :
    Lands m E loop S C inside' behind' next completion σ' s := by
  match completion, h with
  | .normal, ⟨L, hs, h⟩ => exact ⟨L, hs.trans (hconf ..), hbehind L h⟩
  | .broke, ⟨hl, L, hs, h⟩ | .continued, ⟨hl, L, hs, h⟩ =>
    exact ⟨hl, L, hs.trans (hconf ..), hin L h⟩
  | .returned _, ⟨j, L, hj, hs⟩ => exact ⟨j, L, hj, hs.trans (hconf ..)⟩

theorem Lands.onward {C : List Machine.Suspended} {behind : Store → Locals → Prop} {next' : Nat}
    {completion : Completion} {σ : Store}
    (h : Lands m E loop S C inside behind next completion σ s)
    (hnext : ∀ L, m.Steps (conf next S L C σ) (conf next' S L C σ)) :
    ∃ s', m.Steps s s' ∧ Lands m E loop S C inside behind next' completion σ s' := by
  match completion, h with
  | .normal, ⟨L, hs, h⟩ => exact ⟨_, hs ▸ hnext L, L, rfl, h⟩
  | .broke, h | .continued, h | .returned _, h => exact ⟨s, .refl, h⟩

theorem Performs.imp (h : Performs m n E loop inside Δ Δ' c x)
    (hin : ∀ σ L, inside σ L → inside' σ L) :
    Performs m n E loop inside' Δ Δ' c x := by
  intro pc S L C σ hat hσ
  exact (h pc S L C σ hat hσ).imp fun _ σ' _ hl => hl.imp (fun _ _ _ _ => rfl) (hin σ') fun _ h => h

theorem performs_nothing : Performs m n E loop inside Δ Δ [] (pure .normal) := by
  intro pc S L C σ _ hσ
  exact .pure ⟨L, rfl, rfl, hσ⟩

theorem Performs.inOrder (hx : Performs m n E loop inside Δ Δ₁ c x)
    (hy : Performs m n E loop inside Δ₁ Δ' c' y) :
    Performs m n E loop inside Δ Δ' (c ++ c') (inOrder x y) := by
  intro pc S L C σ hat hσ
  obtain ⟨hat₁, hat₂⟩ := hat.of_append
  refine (hx pc S L C σ hat₁ hσ).bind fun completion σ₁ s₁ _ h => ?_
  match completion, h with
  | .normal, ⟨L₁, hs, hret, hσ₁⟩ =>
    rw [hs, length_append, ← Nat.add_assoc]
    refine (hy _ S L₁ C σ₁ hat₂ hσ₁).imp fun _ _ _ hl =>
      hl.imp (fun _ _ _ _ => rfl) (fun _ h => h) fun _ h => ?_
    exact ⟨endsInRet_append hret h.1, h.2⟩
  | .broke, h | .continued, h | .returned _, h => exact .pure h

theorem Performs.inScope (h : Performs m n E loop (Frame.HoldsOuter ([] :: Δ)) ([] :: Δ) Δ₁ c x)
    (htail : Δ₁.tail = Δ) :
    Performs m n E loop Δ.Holds Δ Δ c (Eval.inScope x) := by
  intro pc S L C σ hat hσ
  have hinner : Frame.Holds ([] :: Δ) { σ with env := [] :: σ.env } L := congrArg ([] :: ·) hσ
  have hsim := h pc S L C { σ with env := [] :: σ.env } hat hinner
  refine Sim.map_env (g := fun σ => { σ with env := σ.env.tail }) (fun _ => rfl) hsim
    fun _ σ' _ hl => ?_
  refine hl.imp (fun _ _ _ _ => rfl) (fun _ h => h) fun L' h => ⟨h.1, ?_⟩
  exact htail ▸ h.2.outer

theorem performs_effect {e : Eval Value} (h : ∀ S, Computes m n Δ k c e S fun _ => S)
    (hret : endsInRet c = false) :
    Performs m n E loop inside Δ Δ c (do let _ ← e; return .normal) := by
  intro pc S L C σ hat hσ
  refine (h S pc L C σ hat hσ).bind fun _ σ' s' _ => ?_
  rintro ⟨L', rfl, hσ', -⟩
  exact .pure ⟨L', rfl, hret, hσ'⟩

theorem performs_return {e : Eval Value} (h : ∀ S, Computes m n Δ k c e S fun v => v :: S) :
    Performs m n E loop inside Δ Δ (c ++ [Instr.ret]) (do return .returned (← e)) := by
  intro pc S L C σ hat hσ
  obtain ⟨hat₁, hat₂⟩ := hat.of_append
  refine (h S pc L C σ hat₁ hσ).bind fun v σ' s' _ => ?_
  rintro ⟨L', rfl, -, -⟩
  exact .pure ⟨_, L', hat₂.of_cons.1, rfl⟩

/-! ## Alternatives -/

theorem Performs.chooses (h : Performs m n E loop Δ.Holds Δ Δ c x) :
    Chooses m n E loop Δ target c x := by
  rintro pc S L C σ hat hσ rfl
  exact (h pc S L C σ hat hσ).imp fun _ _ _ hl =>
    hl.imp (fun _ _ _ _ => rfl) (fun _ h => h) fun _ h => h.2

theorem chooses_branch (hm : m.Resolves) {next : String} {ctest crest : List Instr}
    {test : Eval Bool} (hdone : m.target? done = some target)
    (htest : ∀ a, m.target? next = some a → Tests m n Δ a ctest test)
    (hbody : Performs m n E loop Δ.Holds Δ Δ c x) (hrest : Chooses m n E loop Δ target crest y) :
    Chooses m n E loop Δ target (ctest ++ (c ++ [Instr.jump done, .label next]) ++ crest)
      (do if ← test then x else y) := by
  intro pc S L C σ hat hσ htarget
  obtain ⟨hat, hat₄⟩ := hat.of_append
  obtain ⟨hat₁, hat⟩ := hat.of_append
  obtain ⟨hat₂, hat⟩ := hat.of_append
  obtain ⟨hjump, hat⟩ := hat.of_cons
  have hlabel := hat.of_cons.1
  refine (htest _ (hm _ _ hlabel) pc S L C σ hat₁ hσ).bind fun b σ₁ s₁ _ => ?_
  rintro ⟨L₁, rfl, hσ₁⟩
  cases b with
  | true =>
    refine (hbody _ S L₁ C σ₁ hat₂ hσ₁).onward fun _ σ₂ s₂ hl => ?_
    have hl' : Lands m E loop S C Δ.Holds Δ.Holds _ _ σ₂ s₂ :=
      hl.imp (fun _ _ _ _ => rfl) (fun _ h => h) fun _ h => h.2
    exact hl'.onward fun L => .single (Machine.step_jump hjump hdone)
  | false =>
    have hend : pc + (ctest ++ (c ++ [Instr.jump done, .label next])).length =
        pc + ctest.length + c.length + 1 + 1 := by
      simp only [length_append, length_cons, length_nil]
      omega
    rw [length_append, ← Nat.add_assoc, hend] at htarget
    exact .label hlabel (hrest _ S L₁ C σ₁ (hend ▸ hat₄) hσ₁ htarget)

/-- Alternatives, each of which leads to the label behind them. -/
theorem Chooses.performs (hm : m.Resolves)
    (h : ∀ target, m.target? done = some target → Chooses m n E loop Δ target c x) :
    Performs m n E loop Δ.Holds Δ Δ (c ++ [Instr.label done]) x := by
  intro pc S L C σ hat hσ
  obtain ⟨hat₁, hat₂⟩ := hat.of_append
  have hlabel := hat₂.of_cons.1
  refine (h _ (hm _ _ hlabel) pc S L C σ hat₁ hσ rfl).onward fun _ σ₁ s₁ hl => ?_
  have hret : endsInRet (c ++ [Instr.label done]) = false := endsInRet_of_label (suffix_append _ _)
  obtain ⟨s₂, hsteps, hl'⟩ := hl.onward fun L => .single (Machine.step_label hlabel)
  refine ⟨s₂, hsteps, ?_⟩
  rw [length_append, ← Nat.add_assoc]
  exact hl'.imp (fun _ _ _ _ => rfl) (fun _ h => h) fun _ h => ⟨hret, h⟩

/-! ## Loops -/

/-- Rounds of a loop. Each of them takes a step at least, and leads to the start of the next one or
out of the loop. -/
theorem Sim.repeated {round : Eval (Option Completion)} {I : Store → Machine.State → Prop}
    {Q : Completion → Store → Machine.State → Prop}
    (hround : ∀ σ s, I σ s → ∃ s₁, m.step s = .next s₁ ∧ Sim m n s₁ (round σ) fun r σ' s' =>
      r.elim (I σ' s') fun completion => Q completion σ' s') :
    ∀ k, k ≤ n → ∀ σ s, I σ s → Sim m k s (repeated round k σ) Q := by
  intro k
  induction k with
  | zero => exact fun _ _ _ _ => rfl
  | succ k ih =>
    intro hk σ s hI
    obtain ⟨s₁, hstep, hsim⟩ := hround σ s hI
    refine .succ hstep ((hsim.mono (Nat.le_of_succ_le hk)).bind fun r σ' s' _ h => ?_)
    cases r with
    | none => exact ih (Nat.le_of_succ_le hk) σ' s' h
    | some completion => exact .pure h

/-- The states that belong to the end of a round of a loop, which leads to `next` or to the start,
or to the end of the loop. -/
def RoundLands (m : Machine) (Δ : Frame) (start done : Nat) (S : List Value)
    (C : List Machine.Suspended) (next : Nat) :
    Option Completion → Store → Machine.State → Prop
  | none, σ, s => ∃ L, (s = conf next S L C σ ∨ s = conf start S L C σ) ∧ Δ.Holds σ L
  | some .normal, σ, s => ∃ L, s = conf done S L C σ ∧ Δ.Holds σ L
  | some (.returned v), σ, s => ∃ j L, m.program.code[j]? = some .ret ∧ s = conf j (v :: S) L C σ
  | some _, _, _ => False

/-- Code for a round of a loop. -/
def Rounds (m : Machine) (n : Nat) (Δ : Frame) (start done : Nat) (c : List Instr)
    (round : Eval (Option Completion)) :
    Prop :=
  ∀ (pc : Nat) (S : List Value) (L : Locals) (C : List Machine.Suspended) (σ : Store), m.At pc c →
    Δ.Holds σ L →
    Sim m n (conf pc S L C σ) (round σ) (RoundLands m Δ start done S C (pc + c.length))

section Loops

variable {start done : Nat} {round : Eval (Option Completion)} {test : Eval Bool}
  {cbody ctest : List Instr}

theorem rounds_nothing : Rounds m n Δ start done [] (pure none) := by
  intro pc S L C σ _ hσ
  exact .pure ⟨L, .inl rfl, hσ⟩

theorem Rounds.label (h : Rounds m n Δ start done c round) :
    Rounds m n Δ start done (.label l :: c) round := by
  intro pc S L C σ hat hσ
  obtain ⟨hlabel, hat⟩ := hat.of_cons
  rw [length_cons, Nat.add_comm c.length 1, ← Nat.add_assoc]
  exact .label hlabel (h _ S L C σ hat hσ)

theorem rounds_effect {e : Eval Value} (h : ∀ S, Computes m n Δ k c e S fun _ => S) :
    Rounds m n Δ start done c (do let _ ← e; return none) := by
  intro pc S L C σ hat hσ
  refine (h S pc L C σ hat hσ).bind fun _ σ' s' _ => ?_
  rintro ⟨L', rfl, hσ', -⟩
  exact .pure ⟨L', .inl rfl, hσ'⟩

theorem Rounds.guarded (htest : Tests m n Δ done ctest test) (h : Rounds m n Δ start done c round) :
    Rounds m n Δ start done (ctest ++ c) (guarded test round) := by
  intro pc S L C σ hat hσ
  obtain ⟨hat₁, hat₂⟩ := hat.of_append
  rw [length_append, ← Nat.add_assoc]
  refine (htest pc S L C σ hat₁ hσ).bind fun b σ₁ s₁ _ => ?_
  rintro ⟨L₁, rfl, hσ₁⟩
  cases b with
  | true => exact h _ S L₁ C σ₁ hat₂ hσ₁
  | false => exact .pure ⟨L₁, rfl, hσ₁⟩

/-- A body that may leave the loop. It goes on with `round` behind itself, and behind `continue`. -/
theorem sim_unlessLeft {C : List Machine.Suspended} {continueTo last : Nat}
    {σ : Store}
    (hbody : Sim m n s (x σ) (Lands m ⟨done, continueTo⟩ true S C Δ.Holds
      (fun σ L => endsInRet c = false ∧ Δ.Holds σ L) next))
    (hnext : ∀ σ L, Δ.Holds σ L → Sim m n (conf next S L C σ) (round σ)
      (RoundLands m Δ start done S C last)) (hcontinue : ∀ σ L, Δ.Holds σ L →
      Sim m n (conf continueTo S L C σ) (round σ) (RoundLands m Δ start done S C last)) :
    Sim m n s (unlessLeft x round σ) (RoundLands m Δ start done S C last) := by
  refine hbody.bind fun completion σ₁ s₁ _ h => ?_
  match completion, h with
  | .normal, ⟨L, hs, h⟩ => exact hs ▸ hnext σ₁ L h.2
  | .continued, ⟨_, L, hs, h⟩ => exact hs ▸ hcontinue σ₁ L h
  | .broke, ⟨_, L, hs, h⟩ => exact .pure ⟨L, hs, h⟩
  | .returned v, ⟨j, L, hj, hs⟩ => exact .pure ⟨j, L, hj, hs⟩

theorem rounds_body (hbody : Performs m n ⟨done, start⟩ true Δ.Holds Δ Δ cbody x) :
    Rounds m n Δ start done cbody (unlessLeft x (pure none)) := by
  intro pc S L C σ hat hσ
  refine sim_unlessLeft (hbody pc S L C σ hat hσ) ?_ ?_
  · intro σ' L' hσ'
    exact .pure ⟨L', .inl rfl, hσ'⟩
  · intro σ' L' hσ'
    exact .pure ⟨L', .inr rfl, hσ'⟩

theorem Rounds.unlessLeft (hm : m.Resolves) {next : String}
    (hbody : ∀ a, m.target? next = some a → Performs m n ⟨done, a⟩ true Δ.Holds Δ Δ cbody x)
    (h : Rounds m n Δ start done c round) :
    Rounds m n Δ start done (cbody ++ Instr.label next :: c) (unlessLeft x round) := by
  intro pc S L C σ hat hσ
  obtain ⟨hat₁, hat₂⟩ := hat.of_append
  have hnext (σ : Store) (L : Locals) (hσ : Δ.Holds σ L) := h.label (l := next) _ S L C σ hat₂ hσ
  rw [length_append, ← Nat.add_assoc]
  exact sim_unlessLeft (hbody _ (hm _ _ hat₂.of_cons.1) pc S L C σ hat₁ hσ) hnext hnext

/-- **Loops.** They begin with a label that rounds come back to, and end with one that leads out of
them. -/
theorem Rounds.performs (hm : m.Resolves) {start done : String}
    (h : ∀ a b, m.target? start = some a → m.target? done = some b → Rounds m n Δ a b c round) :
    Performs m n E loop inside Δ Δ (.label start :: (c ++ [Instr.jump start, .label done]))
      (repeated round n) := by
  intro pc S L C σ hat hσ
  obtain ⟨hstart, hat⟩ := hat.of_cons
  obtain ⟨hat₁, hat⟩ := hat.of_append
  obtain ⟨hjump, hat⟩ := hat.of_cons
  have hdone := hat.of_cons.1
  have hret : endsInRet (.label start :: (c ++ [Instr.jump start, .label done])) = false :=
    endsInRet_of_label (l := done) ⟨.label start :: (c ++ [Instr.jump start]), by simp⟩
  have hend : pc + (Instr.label start :: (c ++ [Instr.jump start, .label done])).length =
      pc + 1 + c.length + 1 + 1 := by
    simp only [length_append, length_cons, length_nil]
    omega
  rw [hend]
  refine Sim.repeated (I := fun σ s => ∃ L, s = conf pc S L C σ ∧ Δ.Holds σ L) ?_ n (Nat.le_refl n)
    σ _ ⟨L, rfl, hσ⟩
  rintro σ _ ⟨L, rfl, hσ⟩
  refine ⟨_, Machine.step_label hstart, ?_⟩
  refine (h _ _ (hm _ _ hstart) (hm _ _ hdone) _ S L C σ hat₁ hσ).onward fun r σ₁ s₁ hl => ?_
  match r, hl with
  | none, ⟨L₁, .inl hs, hσ₁⟩ =>
    exact ⟨_, hs ▸ .single (Machine.step_jump hjump (hm _ _ hstart)), L₁, rfl, hσ₁⟩
  | none, ⟨L₁, .inr hs, hσ₁⟩ => exact ⟨_, .refl, L₁, hs, hσ₁⟩
  | some .normal, ⟨L₁, hs, hσ₁⟩ =>
    exact ⟨_, hs ▸ .single (Machine.step_label hdone), L₁, rfl, hret, hσ₁⟩
  | some (.returned v), ⟨j, L₁, hj, hs⟩ => exact ⟨_, .refl, j, L₁, hj, hs⟩

end Loops

end Rules

/-! ## Typed statements -/

section Typed

variable {E : Exits}

variable {m : Machine} {n : Nat} {arity : String → Option Nat} {G : Scopes} {Δ : Frame}
  {s : Emit.State} {Γ Γ' : Scopes}
  {M M' : Marks} {c : Context}

open Emit

theorem Marks.of_checked (h : M.checked t = some M') : t.all M.allows ∧ M' = M := by
  rw [Marks.checked, Option.ite_none_right_eq_some] at h
  exact ⟨h.1, (Option.some.inj h.2).symm⟩

theorem HasType.tests (hc : Runs m n arity c) (h : HasType Γ t .int) (hindex : t.all indexesValue)
    (hallows : t.all M.allows) (hs : Fits arity G Δ s Γ M)
    (hl : m.target? l = some target) :
    Tests m n Δ target (code (unlessTrue t l) s) (c.test t) := by
  intro pc S L C σ hat hσ
  rw [code_unlessTrue] at hat ⊢
  obtain ⟨hat₁, hat₂⟩ := hat.of_append
  rw [Context.test, if_neg h.kind_ne_empty]
  have hvalue := h.computes hc hindex hallows hs (d := .value) (by simp) (fun _ => Ty.noConfusion) S
  refine (hvalue pc L C σ hat₁ hσ).bind fun v σ₁ s₁ _ => ?_
  rintro ⟨L₁, rfl, hσ₁, -⟩
  refine .jumpIfZero hat₂.of_cons.1 hl (.pure ⟨L₁, ?_, hσ₁⟩)
  rw [length_append, ← Nat.add_assoc]
  cases v.isZero <;> rfl

theorem OptionalInt.tests (hc : Runs m n arity c) (h : OptionalInt Γ t)
    (hindex : t.all indexesValue) (hallows : t.all M.allows) (hs : Fits arity G Δ s Γ M)
    (hl : m.target? l = some target) :
    Tests m n Δ target (code (unlessOmitted t l) s) (c.test t) := by
  cases h with
  | omitted loc =>
    intro pc S L C σ _ hσ
    exact .pure ⟨L, rfl, hσ⟩
  | expr _ h =>
    rw [unlessOmitted, if_neg h.kind_ne_empty]
    exact h.tests hc hindex hallows hs hl

theorem OptionalExpr.computes (hc : Runs m n arity c) (h : OptionalExpr Γ t)
    (hindex : t.all indexesValue) (hallows : t.all M.allows) (hs : Fits arity G Δ s Γ M)
    (S : List Value) :
    Computes m n Δ s.nextSlot (code (expression t .effect) s) (c.eval t) S fun _ => S := by
  cases h with
  | omitted loc =>
    have heval : c.eval (.omitted loc) = pure .absent := by simp [Tree.omitted, Context.eval]
    rw [code_omitted, heval]
    exact .nil rfl
  | expr _ ty h =>
    exact h.computes hc hindex hallows hs (d := .effect) (by simp) (fun h => absurd rfl h) S

/-! ## Declarations -/

theorem execute_zeroInstr (ty : Ty) (pc : Nat) (S : List Value) (L : Locals)
    (C : List Machine.Suspended) (σ : Store) :
    m.execute (conf pc S L C σ) (zeroInstr ty) =
      .next (conf (pc + 1) (ty.zeroValue :: S) L C σ) := by
  cases ty <;> rfl

theorem Declares.computes (hc : Runs m n arity c) {d : Tree} (h : Declares IsName ty Γ d Γ')
    (hty : ty.IsValue) (hindex : d.all indexesValue) (hallows : ∀ e ∈ d.children, e.all M.allows)
    (hs : Fits arity G Δ s Γ M) (S : List Value) :
    Computes m n Δ s.nextSlot (code (initialValue ty d) s) (c.initialValue ty d) S
      fun v => v :: S := by
  cases h with
  | plain x loc =>
    rw [code_initialValue_plain]
    exact .one fun pc => execute_zeroInstr ty pc S
  | initial x loc e ty' _ _ he hacc =>
    have hvalue := he.computes hc (all_of_mem hindex (by simp)) (hallows e (by simp)) hs
      (d := .value)
      (by simp) (fun _ => (isValue_of_accepts hacc hty).1) S
    rw [initialValue_initial]
    exact he.computes_widen (.inr rfl) hvalue
  | array x loc e _ _ he =>
    have hsize := he.computes hc (all_of_mem hindex (by simp)) (hallows e (by simp)) hs
      (d := .value)
      (by simp) (fun _ => Ty.noConfusion) S
    rw [code_initialValue_array]
    exact hsize.bind fun v => .one fun _ _ _ _ => rfl

def Declaring (m : Machine) (n : Nat) (Δ Δ' : Frame) (c : List Instr) (x : Eval Unit) : Prop :=
  ∀ (pc : Nat) (S : List Value) (L : Locals) (C : List Machine.Suspended) (σ : Store), m.At pc c →
    Δ.Holds σ L →
    Sim m n (conf pc S L C σ) (x σ) fun _ σ' s' => ∃ L', s' = conf (pc + c.length) S L' C σ' ∧
      Δ'.Holds σ' L'

theorem Declares.declaring (hc : Runs m n arity c) {d : Tree} (h : Declares IsName ty Γ d Γ')
    (hty : ty.IsValue) (hindex : d.all indexesValue) (hs : Fits arity G Δ s Γ M)
    (hM : Marks.declarator ty M d = some M') :
    ∃ Δ', Fits arity G Δ' (after (declarator ty d) s) Γ' M' ∧ Δ'.tail = Δ.tail ∧
      Declaring m n Δ Δ' (code (declarator ty d) s) (c.declarator ty d) := by
  rw [Marks.declarator, Option.ite_none_right_eq_some, all_eq_true] at hM
  obtain ⟨hallows, hM⟩ := hM
  obtain rfl := Option.some.inj hM
  have hs' := hs.after (initialValue ty d)
  obtain ⟨isArray, hx, hd⟩ : ∃ isArray, IsName d.text ∧
      Γ.declare? d.text (.var ty isArray) = some Γ' := by
    cases h with
    | plain x loc _ hx hd => exact ⟨_, hx, hd⟩
    | initial x loc e ty' _ hx _ _ hd => exact ⟨_, hx, hd⟩
    | array x loc e _ hx _ hd => exact ⟨_, hx, hd⟩
  refine ⟨Δ.declare (.next (after (initialValue ty d) s) M d.text ty isArray), ?_,
    Frame.tail_declare Δ _, ?_⟩
  · rw [after_declarator]
    exact hs'.declare hx hty hd
  · intro pc S L C σ hat hσ
    rw [code_declarator] at hat ⊢
    obtain ⟨hat₁, hat₂⟩ := hat.of_append
    refine (h.computes hc hty hindex hallows hs S pc L C σ hat₁ hσ).bind fun v σ₁ s₁ _ => ?_
    rintro ⟨L₁, rfl, hσ₁, -⟩
    refine .store hat₂.of_cons.1
      ⟨_, .refl, L₁.store ((after (initialValue ty d) s).newSlot d.text) v, ?_, ?_⟩
    · rw [length_append, ← Nat.add_assoc]
      rfl
    · show σ₁.env.declare d.text ⟨ty = .double, v⟩ = _
      rw [hσ₁, hs'.env_declare_store hx]

theorem DeclaresAll.declaring (hc : Runs m n arity c) {ds : List Tree}
    (h : DeclaresAll IsName ty Γ ds Γ') (hty : ty.IsValue) (hindex : ∀ d ∈ ds, d.all indexesValue)
    (hs : Fits arity G Δ s Γ M) (hM : ds.foldlM (Marks.declarator ty) M = some M') :
    ∃ Δ', Fits arity G Δ' (after (ds.forM (declarator ty)) s) Γ' M' ∧ Δ'.tail = Δ.tail ∧
      endsInRet (code (ds.forM (declarator ty)) s) = false ∧
      Declaring m n Δ Δ' (code (ds.forM (declarator ty)) s) (ds.forM (c.declarator ty)) := by
  induction h generalizing Δ s M with
  | nil Γ =>
    cases hM
    refine ⟨Δ, hs.of_eq rfl rfl rfl rfl (Nat.le_refl _), rfl, rfl, fun pc S L C σ _ hσ => ?_⟩
    exact .pure ⟨L, rfl, hσ⟩
  | cons Γ Γ' Γ'' d ds hd _ ih =>
    obtain ⟨hindex, hindex'⟩ := forall_mem_cons.mp hindex
    obtain ⟨M₁, hM₁, hM⟩ := Option.bind_eq_some_iff.mp hM
    obtain ⟨Δ₁, hs₁, htail₁, hfirst⟩ := hd.declaring hc hty hindex hs hM₁
    obtain ⟨Δ', hs', htail, hret, hrest⟩ := ih hindex' hs₁ hM
    rw [after_forM_cons, code_forM_cons]
    refine ⟨Δ', hs', htail.trans htail₁, endsInRet_append ?_ hret, ?_⟩
    · rw [code_declarator]
      simp [endsInRet, Instr.isRet]
    · intro pc S L C σ hat hσ
      obtain ⟨hat₁, hat₂⟩ := hat.of_append
      rw [length_append, ← Nat.add_assoc]
      refine (hfirst pc S L C σ hat₁ hσ).bind fun _ σ₁ s₁ _ => ?_
      rintro ⟨L₁, rfl, hσ₁⟩
      exact hrest _ S L₁ C σ₁ hat₂ hσ₁

/-! ## All statements -/

/-- The exits are where the labels of the innermost loop are. -/
def Exits.Fit (E : Exits) (m : Machine) (s : Emit.State) (loop : Bool) : Prop :=
  loop = true → ∃ labels rest, s.loops = labels :: rest ∧
    m.target? labels.breakTo = some E.breakTo ∧
    m.target? labels.continueTo = some E.continueTo

theorem Exits.Fit.of_eq {s' : Emit.State} (h : E.Fit m s loop) (hs : s'.loops = s.loops) :
    E.Fit m s' loop := by
  rw [Exits.Fit, hs]
  exact h

theorem performs_leap {inside : Store → Locals → Prop} {completion : Completion}
    {labels : LoopLabels} {rest : List LoopLabels} (loc : Loc) (leap : LoopLabels → String)
    (hloops : s.loops = labels :: rest) (htarget : m.target? (leap labels) = some target)
    (hlands : ∀ S L C σ next, Δ.Holds σ L →
      Lands m E true S C inside (fun _ _ => False) next completion σ (conf target S L C σ)) :
    Performs m n E true inside Δ Δ (code (loopJump loc leap) s) (pure completion) := by
  intro pc S L C σ hat hσ
  rw [code_loopJump, hloops] at hat
  refine .jump hat.of_cons.1 htarget (.pure ?_)
  exact (hlands S L C σ _ hσ).imp (fun _ _ _ _ => rfl) (fun _ h => h) fun _ h => h.elim

theorem HasType.chooses (hc : Runs m n arity c) (hm : m.Resolves) {cond : Tree}
    (hcond : HasType Γ cond .int) (hindex : cond.all indexesValue) (hallows : cond.all M.allows)
    (hs : Fits arity G Δ s Γ M) {body : Tree} {rest : Emit Unit} [Steady rest]
    {x y : Eval Completion} (hdone : m.target? done = some target)
    (hbody : Performs m n E loop Δ.Holds Δ Δ
      (code (statement body) (after (expression cond .value) s.labelled)) x)
    (hrest : Chooses m n E loop Δ target (code rest (after (branch cond (statement body) done) s))
      y) :
    Chooses m n E loop Δ target (code (branch cond (statement body) done >>= fun _ => rest) s)
      (do if ← c.test cond then x else y) := by
  rw [code_bind, code_branch, append_cons, ← code_unlessTrue]
  exact chooses_branch hm hdone (fun a ha => hcond.tests hc hindex hallows hs.labelled ha)
    hbody hrest

theorem Fits.after_unlessOmitted (hs : Fits arity G Δ s Γ M) (t : Tree) (l : String) :
    Fits arity G Δ (Emit.after (unlessOmitted t l) s) Γ M := by
  unfold unlessOmitted
  split
  · exact hs.after (pure ())
  · rw [after_unlessTrue]
    exact hs.after _

theorem returnType_after {x : Emit α} [Steady x] (h : s.returnType = c.returnType) :
    (after x s).returnType = c.returnType := (Steady.extend s).returnType_eq.trans h

theorem Exits.Fit.after {x : Emit α} [Steady x] (h : E.Fit m s loop) :
    E.Fit m (Emit.after x s) loop := h.of_eq (Steady.extend s).loops_eq

mutual

/-- **The code of a statement** does what the statement means. -/
theorem Typed.performs (hc : Runs m n arity c) (hm : m.Resolves) (hret : c.returnType.IsValue)
    {loop : Bool} {Γ Γ' : Scopes} {t : Tree} :
    Typed IsName (some c.returnType) loop Γ t Γ' → t.all indexesValue →
    ∀ {Δ : Frame} {s : Emit.State} {M M' : Marks}, Fits arity G Δ s Γ M →
    s.returnType = c.returnType →
    Marks.statement t M = some M' →
    ∃ Δ', Fits arity G Δ' (after (statement t) s) Γ' M' ∧ Δ'.tail = Δ.tail ∧
    ∀ E : Exits, E.Fit m s loop →
      Performs m n E loop Δ.Holds Δ Δ' (code (statement t) s) (c.exec t)
  | .omitted loop Γ loc, _, Δ, s, M, M', hs, _, hM => by
    have hexec : c.exec (.omitted loc) = pure .normal := by simp [omitted, Context.exec]
    have hmarks : Marks.statement (.omitted loc) M = some M := by simp [omitted, Marks.statement]
    obtain rfl : M = M' := Option.some.inj (hmarks.symm.trans hM)
    rw [statement_omitted, hexec]
    exact ⟨Δ, hs.after (pure ()), rfl, fun E _ => performs_nothing⟩
  | .block loop Γ t h, hindex, Δ, s, M, M', hs, hty, hM => by
    obtain ⟨hs', hperforms⟩ := h.performs hc hm hret hindex hs hty hM
    exact ⟨Δ, hs', rfl, hperforms⟩
  | .declaration loop Γ Γ' loc ty ds hty hds, hindex, Δ, s, M, M', hs, _, hM => by
    rw [Marks.statement] at hM
    obtain ⟨Δ', hs', htail, hends, hdecl⟩ := hds.declaring hc hty
      (fun d hd => all_of_mem hindex (mem_cons_of_mem _ hd)) hs hM
    rw [statement_declaration, Context.exec]
    refine ⟨Δ', hs', htail, fun E _ pc S L C σ hat hσ => ?_⟩
    refine (hdecl pc S L C σ hat hσ).bind fun _ σ₁ s₁ _ => ?_
    rintro ⟨L₁, rfl, hσ₁⟩
    exact .pure ⟨L₁, rfl, hends, hσ₁⟩
  | .exprStmt loop Γ loc e ty he, hindex, Δ, s, M, M', hs, _, hM => by
    rw [Marks.statement] at hM
    obtain ⟨hallows, rfl⟩ := Marks.of_checked hM
    have hvalue := he.computes hc (all_of_mem hindex (by simp)) hallows hs (d := .effect) nofun
      (fun h => absurd rfl h)
    rw [statement_exprStmt, Context.exec]
    exact ⟨Δ, hs.after _, rfl, fun E _ => performs_effect hvalue (endsInRet_of_straight _ s)⟩
  | .returnStmt loop Γ loc e ty ty' hr he hacc, hindex, Δ, s, M, M', hs, hty, hM => by
    rw [Marks.statement] at hM
    obtain ⟨hallows, rfl⟩ := Marks.of_checked hM
    obtain rfl := Option.some.inj hr
    have hvalue := he.computes hc (all_of_mem hindex (by simp)) hallows hs (d := .value) nofun
      (fun _ => (isValue_of_accepts hacc hret).1)
    rw [code_returnStmt, after_returnStmt, hty, Context.exec]
    exact ⟨Δ, hs.after _, rfl, fun E _ => performs_return fun S => he.computes_widen (.inr rfl)
      (hvalue S)⟩
  | .breakStmt Γ loc, _, Δ, s, M, M', hs, _, hM => by
    obtain rfl : M = M' := by simpa [Marks.statement] using hM
    rw [statement_breakStmt, Context.exec]
    refine ⟨Δ, ?_, rfl, fun E hE => ?_⟩
    · rw [after_loopJump]
      exact hs.after (pure ())
    · obtain ⟨labels, rest, hloops, hbreak, -⟩ := hE rfl
      exact performs_leap loc _ hloops hbreak fun S L C σ _ hσ => ⟨rfl, L, rfl, hσ⟩
  | .continueStmt Γ loc, _, Δ, s, M, M', hs, _, hM => by
    obtain rfl : M = M' := by simpa [Marks.statement] using hM
    rw [statement_continueStmt, Context.exec]
    refine ⟨Δ, ?_, rfl, fun E hE => ?_⟩
    · rw [after_loopJump]
      exact hs.after (pure ())
    · obtain ⟨labels, rest, hloops, -, hcontinue⟩ := hE rfl
      exact performs_leap loc _ hloops hcontinue fun S L C σ _ hσ => ⟨rfl, L, rfl, hσ⟩
  | .conditional loop Γ loc cond body rest hcond hbody hrest, hindex, Δ, s, M, M', hs, hty, hM => by
    rw [Marks.statement] at hM
    obtain ⟨M₀, hcheck, hmore⟩ := Option.bind_eq_some_iff.mp hM
    obtain ⟨hallows, rfl⟩ := Marks.of_checked hcheck
    obtain ⟨M₁, hM₁, hM₂⟩ := Option.bind_eq_some_iff.mp hmore
    have hs₁ := hs.labelled.labelled.after (expression cond .value)
    obtain ⟨hs₂, hfirst⟩ := hbody.performs hc hm hret (all_of_mem hindex (by simp)) hs₁
      (returnType_after hty) hM₁
    rw [← after_branch cond s.label] at hs₂
    obtain ⟨hs₃, hmore⟩ := hrest.chooses hc hm hret
      (fun t ht => all_of_mem hindex (mem_cons_of_mem _ (mem_cons_of_mem _ ht))) hs₂
      (returnType_after (s := s.labelled) hty) hM₂ s.label
    rw [statement_conditional, after_conditional, code_conditional, after_bind, Context.exec]
    refine ⟨Δ, hs₃, rfl, fun E hE => Chooses.performs hm fun target htarget => ?_⟩
    exact hcond.chooses hc hm (all_of_mem hindex (by simp)) hallows hs.labelled htarget
      (hfirst E (Exits.Fit.after (s := s.labelled.labelled) hE))
      (hmore E target (Exits.Fit.after (s := s.labelled) hE) htarget)
  | .whileLoop loop Γ loc cond body hcond hbody, hindex, Δ, s, M, M', hs, hty, hM => by
    rw [Marks.statement] at hM
    obtain ⟨M₀, hcheck, hmore⟩ := Option.bind_eq_some_iff.mp hM
    obtain ⟨hallows, rfl⟩ := Marks.of_checked hcheck
    have hs₁ := hs.labelled.labelled
    have hs₂ := (hs₁.after (expression cond .value)).within ⟨s.labelled.label, s.label⟩
    obtain ⟨hs₃, hperforms⟩ := hbody.performs hc hm hret (all_of_mem hindex (by simp)) hs₂
      (returnType_after (s := s.labelled.labelled) hty) hmore
    rw [statement_whileLoop, after_whileLoop, code_whileLoop, Context.exec, hc.rounds_eq]
    dsimp only
    rw [after_unlessTrue, ← append_assoc]
    refine ⟨Δ, hs₃.past, rfl, fun E _ => Rounds.performs hm fun start done hstart hdone => ?_⟩
    refine Rounds.guarded (hcond.tests hc (all_of_mem hindex (by simp)) hallows hs₁ hdone) ?_
    exact rounds_body (hperforms ⟨done, start⟩ fun _ => ⟨_, _, rfl, hdone, hstart⟩)
  | .doWhile loop Γ loc body cond hbody hcond, hindex, Δ, s, M, M', hs, hty, hM => by
    rw [Marks.statement] at hM
    obtain ⟨M₁, hM₁, hcheck⟩ := Option.bind_eq_some_iff.mp hM
    obtain ⟨hallows, rfl⟩ := Marks.of_checked hcheck
    have hs₁ := hs.labelled.labelled.labelled.within ⟨s.labelled.labelled.label, s.labelled.label⟩
    obtain ⟨hs₂, hperforms⟩ := hbody.performs hc hm hret (all_of_mem hindex (by simp)) hs₁ hty hM₁
    have hcode (start next : Instr) (b t e : List Instr) : start :: (b ++ next :: (t ++ e)) =
      start :: ((b ++ next :: t) ++ e) := by simp
    rw [statement_doWhile, after_doWhile, code_doWhile, Context.exec, hc.rounds_eq]
    dsimp only
    rw [after_unlessTrue, hcode]
    refine ⟨Δ, hs₂.past.after _, rfl, fun E _ => Rounds.performs hm
      fun start done hstart hdone => ?_⟩
    refine Rounds.unlessLeft hm
      (fun next hnext => hperforms ⟨done, next⟩ fun _ => ⟨_, _, rfl, hdone, hnext⟩) ?_
    rw [← append_nil (code (unlessTrue cond _) _)]
    exact Rounds.guarded (hcond.tests hc (all_of_mem hindex (by simp)) hallows hs₂.past hdone)
      rounds_nothing
  | .forLoop loop Γ Γ' loc first cond step body hfirst hcond hstep
      hbody, hindex, Δ, s, M, M', hs, hty,
    hM => by
    rw [Marks.statement] at hM
    obtain ⟨M₄, hmarks, rfl⟩ := Option.map_eq_some_iff.mp hM
    obtain ⟨M₁, hM₁, htested⟩ := Option.bind_eq_some_iff.mp hmarks
    obtain ⟨M₂, hcheck, hentered⟩ := Option.bind_eq_some_iff.mp htested
    obtain ⟨hallows, rfl⟩ := Marks.of_checked hcheck
    obtain ⟨M₃, hM₃, hstepped⟩ := Option.bind_eq_some_iff.mp hentered
    obtain ⟨hallows', rfl⟩ := Marks.of_checked hstepped
    obtain ⟨Δ₁, hs₁, htail, hprepares⟩ :=
      hfirst.performs hc hm hret (all_of_mem hindex (by simp)) hs.enter hty hM₁
    have hs₂ := hs₁.labelled.labelled.labelled
    have hs₃ :=
      hs₂.after_unlessOmitted cond (after (statement first) s.enter).labelled.labelled.label
    obtain ⟨hs₄, hperforms⟩ := hbody.performs hc hm hret (all_of_mem hindex (by simp))
      (hs₃.within ⟨_, (after (statement first) s.enter).labelled.label⟩)
      (returnType_after (x := unlessOmitted cond _)
        (returnType_after (x := statement first) (s := s.enter) hty)) hM₃
    have hcode (start next : Instr) (t b e l : List Instr) :
      start :: (t ++ (b ++ next :: (e ++ l))) =
      start :: ((t ++ (b ++ next :: e)) ++ l) := by simp
    have hext := Steady.extend (x := statement first >>= fun _ =>
      forLoop loc (unlessOmitted cond) (statement body) (expression step .effect)) s.enter
    have hs₅ : Fits arity G Δ₁ (after (statement first >>= fun _ =>
        forLoop loc (unlessOmitted cond) (statement body) (expression step .effect))
            s.enter) Γ' M₄ := by
      rw [after_bind, after_forLoop]
      exact hs₄.past.after (expression step .effect)
    rw [statement_forLoop, after_inScope, code_inScope, code_bind, Context.exec, hc.rounds_eq]
    refine ⟨Δ, hs.leave hs₅ htail hext.functions_eq hext.valued_eq, rfl, fun E hE => ?_⟩
    refine Performs.inScope (((hprepares E hE).imp fun _ _ h => h.outer).inOrder ?_) htail
    rw [code_forLoop]
    dsimp only
    rw [hcode]
    refine Rounds.performs hm fun start done hstart hdone => ?_
    refine Rounds.guarded (hcond.tests hc (all_of_mem hindex (by simp)) hallows hs₂ hdone) ?_
    refine Rounds.unlessLeft hm
      (fun next hnext => hperforms ⟨done, next⟩ fun _ => ⟨_, _, rfl, hdone, hnext⟩) ?_
    exact rounds_effect (hstep.computes hc (all_of_mem hindex (by simp)) hallows' hs₄.past)

theorem TypedBlock.performs (hc : Runs m n arity c) (hm : m.Resolves) (hret : c.returnType.IsValue)
    {loop : Bool} {Γ : Scopes} {t : Tree} :
    TypedBlock IsName (some c.returnType) loop Γ t → t.all indexesValue →
    ∀ {Δ : Frame} {s : Emit.State} {M M' : Marks}, Fits arity G Δ s Γ M →
    s.returnType = c.returnType →
    Marks.statement t M = some M' →
    Fits arity G Δ (after (statement t) s) Γ M' ∧ ∀ E : Exits, E.Fit m s loop →
      Performs m n E loop Δ.Holds Δ Δ (code (statement t) s) (c.exec t)
  | .mk loop Γ Γ' loc ts hts, hindex, Δ, s, M, M', hs, hty, hM => by
    rw [Marks.statement] at hM
    obtain ⟨M₁, hM₁, rfl⟩ := Option.map_eq_some_iff.mp hM
    obtain ⟨Δ₁, hs₁, htail, hperforms⟩ :=
      hts.performs hc hm hret (fun t ht => all_of_mem hindex ht) hs.enter hty hM₁
    have hext := Steady.extend (x := statements ts) s.enter
    rw [statement_block, after_inScope, code_inScope, Context.exec]
    exact ⟨hs.leave hs₁ htail hext.functions_eq hext.valued_eq,
      fun E hE => (hperforms E hE).inScope htail⟩

theorem TypedAll.performs (hc : Runs m n arity c) (hm : m.Resolves) (hret : c.returnType.IsValue)
    {loop : Bool} {Γ Γ' : Scopes} {ts : List Tree} :
    TypedAll IsName (some c.returnType) loop Γ ts Γ' → (∀ t ∈ ts, t.all indexesValue) →
    ∀ {Δ : Frame} {s : Emit.State} {M M' : Marks}, Fits arity G Δ s Γ M →
    s.returnType = c.returnType →
    Marks.statements ts M = some M' →
    ∃ Δ', Fits arity G Δ' (after (statements ts) s) Γ' M' ∧ Δ'.tail = Δ.tail ∧
    ∀ E : Exits, E.Fit m s loop →
      Performs m n E loop Δ.HoldsOuter Δ Δ' (code (statements ts) s) (c.execAll ts)
  | .nil loop Γ, _, Δ, s, M, M', hs, _, hM => by
    obtain rfl : M = M' := by simpa [Marks.statements] using hM
    rw [statements_nil, Context.execAll]
    exact ⟨Δ, hs.after (pure ()), rfl, fun E _ => performs_nothing⟩
  | .cons loop Γ Γ' Γ'' t ts ht hts, hindex, Δ, s, M, M', hs, hty, hM => by
    rw [Marks.statements] at hM
    obtain ⟨M₁, hM₁, hM₂⟩ := Option.bind_eq_some_iff.mp hM
    obtain ⟨hindex, hindex'⟩ := forall_mem_cons.mp hindex
    obtain ⟨Δ₁, hs₁, htail₁, hfirst⟩ := ht.performs hc hm hret hindex hs hty hM₁
    obtain ⟨Δ₂, hs₂, htail₂, hrest⟩ :=
      hts.performs hc hm hret hindex' hs₁ (returnType_after hty) hM₂
    have houter : Δ₁.HoldsOuter = Δ.HoldsOuter := by
      unfold Frame.HoldsOuter
      rw [htail₁]
    rw [statements_cons, after_bind, code_bind, Context.execAll]
    refine ⟨Δ₂, hs₂, htail₂.trans htail₁, fun E hE => ?_⟩
    exact ((hfirst E hE).imp fun _ _ h => h.outer).inOrder (houter ▸ hrest E hE.after)

theorem TypedBranches.chooses (hc : Runs m n arity c) (hm : m.Resolves)
    (hret : c.returnType.IsValue) {loop : Bool} {Γ : Scopes} {ts : List Tree} :
    TypedBranches IsName (some c.returnType) loop Γ ts → (∀ t ∈ ts, t.all indexesValue) →
    ∀ {Δ : Frame} {s : Emit.State} {M M' : Marks}, Fits arity G Δ s Γ M →
    s.returnType = c.returnType →
    Marks.branches ts M = some M' → ∀ done : String,
    Fits arity G Δ (after (branches done ts) s) Γ M' ∧ ∀ (E : Exits) (target : Nat),
      E.Fit m s loop →
      m.target? done = some target → Chooses m n E loop Δ target (code (branches done ts) s)
        (c.execBranches ts)
  | .nil loop Γ, _, Δ, s, M, M', hs, _, hM, done => by
    obtain rfl : M = M' := by simpa [Marks.branches] using hM
    rw [branches_nil, Context.execBranches]
    exact ⟨hs.after (pure ()), fun E target _ _ => performs_nothing.chooses⟩
  | .last loop Γ body hbody, hindex, Δ, s, M, M', hs, hty, hM, done => by
    have hblock : branches done [body] = statement body ∧ c.execBranches [body] = c.exec body ∧
        Marks.branches [body] M = Marks.statement body M := by
      cases hbody
      exact ⟨branches_last _ done
        _, by rw [Context.execBranches]; simp, by rw [Marks.branches]; simp⟩
    obtain ⟨hcode, heval, hmarks⟩ := hblock
    obtain ⟨hs', hperforms⟩ :=
      hbody.performs hc hm hret (hindex body (by simp)) hs hty (hmarks ▸ hM)
    rw [hcode, heval]
    exact ⟨hs', fun E target hE _ => (hperforms E hE).chooses⟩
  | .elseIf loop Γ loc cond body ts hcond hbody hts, hindex, Δ, s, M, M', hs, hty, hM, done => by
    rw [Marks.branches] at hM
    obtain ⟨M₀, hcheck, hmore⟩ := Option.bind_eq_some_iff.mp hM
    obtain ⟨hallows, rfl⟩ := Marks.of_checked hcheck
    obtain ⟨M₁, hM₁, hM₂⟩ := Option.bind_eq_some_iff.mp hmore
    obtain ⟨hindex, hindex'⟩ := forall_mem_cons.mp hindex
    have hs₁ := hs.labelled.after (expression cond .value)
    obtain ⟨hs₂, hfirst⟩ := hbody.performs hc hm hret (all_of_mem hindex (by simp)) hs₁
      (returnType_after (s := s.labelled) hty) hM₁
    rw [← after_branch cond done] at hs₂
    obtain ⟨hs₃, hmore⟩ := hts.chooses hc hm hret hindex' hs₂ (returnType_after hty) hM₂ done
    rw [branches_elseIf, after_bind, Context.execBranches]
    refine ⟨hs₃, fun E target hE htarget => ?_⟩
    exact hcond.chooses hc hm (all_of_mem hindex (by simp)) hallows hs htarget
      (hfirst E (Exits.Fit.after (s := s.labelled) hE)) (hmore E target hE.after htarget)

end

end Typed

end Stacklet
