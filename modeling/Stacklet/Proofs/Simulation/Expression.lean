import Stacklet.Proofs.Simulation.Basic
/-!
# Expressions do what they mean

* `HasType.computes`: the code of an expression leaves its value on the stack if it is wanted, and
  else nothing.
* `computes_widen`: where a `double` is wanted, literals are pushed as doubles.
-/

namespace Stacklet

open Machine (conf)
open List
open Stacklet.Tree

/-- The stack with a value if it is wanted. -/
def Demand.push (d : Demand) (v : Value) (S : List Value) : List Value :=
  if d = .effect then S else v :: S

theorem Demand.push_of_ne {d : Demand} (h : d ≠ .effect) (v : Value) (S : List Value) :
    d.push v S = v :: S := if_neg h

/-- Calls of the functions of a program do what they mean. -/
def CallsAt (m : Machine) (n : Nat) (arity : String → Option Nat)
    (call : String → List Value → Eval Value) : Prop :=
  ∀ (f : String) (vs : List Value), arity f = some vs.length → Builtin.ofName? f = none →
    ∀ (pc : Nat) (S : List Value) (L : Locals) (C : List Machine.Suspended) (σ : Store),
      m.program.code[pc]? = some (.call f) →
      Sim m n (conf pc (vs.reverse ++ S) L C σ) (call f vs σ) fun v σ' s' =>
        s' = conf (pc + 1) (v :: S) L C σ' ∧ σ'.env = σ.env

section Instructions

variable {m : Machine} {n k : Nat} {Δ : Frame} {S : List Value}

open Emit

theorem computes_dropped (d : Demand) (v : Value) :
    Computes m n Δ k (dropped d) (pure v) (v :: S) fun v => d.push v S := by
  cases d with
  | effect => exact .one fun _ _ _ _ => rfl
  | value | double => exact .nil rfl

theorem computes_unaryCode (op : String) (v : Value) :
    Computes m n Δ k (unaryCode op) (pure (unaryValue op v)) (v :: S) fun v => v :: S := by
  by_cases hneg : op = "-"
  · subst hneg
    exact .one fun _ _ _ _ => rfl
  by_cases hnot : op = "!"
  · subst hnot
    exact .one fun _ _ _ _ => rfl
  have hcode : unaryCode op = [] := by simp [unaryCode]
  have hvalue : unaryValue op v = v := by simp [unaryValue]
  rw [hcode, hvalue]
  exact .nil rfl

theorem computes_print {f : String} {b : Builtin} (hb : Builtin.ofName? f = some b)
    (text : Value → String) (v : Value) (hcall : ∀ s, m.callBuiltin s b = s.print text) :
    Computes m n Δ k [.call f] (Eval.print (text v)) (v :: S) fun _ => S := by
  intro pc L C σ hat henv
  have hstep := Machine.step_of_getElem? (s := conf pc (v :: S) L C σ) hat.of_cons.1
  rw [Machine.execute, hb] at hstep
  dsimp only at hstep
  rw [hcall] at hstep
  unfold Eval.print
  unfold Machine.State.print at hstep
  dsimp only [conf] at hstep
  cases hprint : σ.sink.print (text v) with
  | mk r sink =>
    rw [hprint] at hstep
    cases r with
    | error e => exact ⟨_, _, .refl, hstep, rfl⟩
    | ok _ => exact ⟨_, .single hstep, L, rfl, henv, fun _ _ => rfl⟩

theorem computes_read {f : String} {b : Builtin} (hb : Builtin.ofName? f = some b)
    (reader : Input → Except StreamError String × Input) (value : String → Value)
    (hcall : ∀ s, m.callBuiltin s b = s.read reader value) :
    Computes m n Δ k [.call f] (Eval.read reader value) S fun v => v :: S := by
  intro pc L C σ hat henv
  have hstep := Machine.step_of_getElem? (s := conf pc S L C σ) hat.of_cons.1
  rw [Machine.execute, hb] at hstep
  dsimp only at hstep
  rw [hcall] at hstep
  unfold Eval.read
  unfold Machine.State.read at hstep
  dsimp only [conf] at hstep
  cases hread : reader σ.input with
  | mk r input =>
    rw [hread] at hstep
    cases r with
    | error e => exact ⟨_, _, .refl, hstep, rfl⟩
    | ok _ => exact ⟨_, .single hstep, L, rfl, henv, fun _ _ => rfl⟩

/-- **Built-in functions** take their arguments from the stack. -/
theorem computes_builtin {f : String} {b : Builtin} (hb : Builtin.ofName? f = some b)
    {vs : List Value} (hlen : vs.length = b.params.length) :
    Computes m n Δ k [.call f] (b.call m.limit vs) (vs.reverse ++ S) fun v =>
      if b.returns = .void then S else v :: S := by
  cases b with
  | printInt =>
    obtain ⟨v, rfl⟩ := length_eq_one_iff.mp hlen
    exact computes_print hb (fun v => Number.decimal v.toInt.toInt) v fun _ => rfl
  | printDouble =>
    obtain ⟨v, rfl⟩ := length_eq_one_iff.mp hlen
    exact computes_print hb (fun v => Number.general v.toDouble) v fun _ => rfl
  | printStr =>
    obtain ⟨v, rfl⟩ := length_eq_one_iff.mp hlen
    exact computes_print hb Value.toText v fun _ => rfl
  | inputInt =>
    obtain rfl := length_eq_zero_iff.mp hlen
    exact computes_read hb Input.readToken (fun t => .int (Number.leadingInt t)) fun _ => rfl
  | inputDouble =>
    obtain rfl := length_eq_zero_iff.mp hlen
    exact computes_read hb Input.readToken (fun t => .double (Number.leadingDouble t)) fun _ => rfl
  | inputStr =>
    obtain rfl := length_eq_zero_iff.mp hlen
    exact computes_read hb Input.readText .string fun _ => rfl
  | timeUp =>
    obtain rfl := length_eq_zero_iff.mp hlen
    intro pc L C σ hat henv
    have hstep := Machine.step_of_getElem? (s := conf pc S L C σ) hat.of_cons.1
    rw [Machine.execute, hb] at hstep
    exact ⟨_, .single hstep, L, rfl, henv, fun _ _ => rfl⟩

end Instructions

/-! ## Variables -/

section Variables

variable {m : Machine} {n k : Nat} {arity : String → Option Nat} {G : Scopes} {Δ : Frame}
  {s : Emit.State} {Γ : Scopes}
  {M : Marks} {S : List Value} {x : String} {b : Binding}

theorem computes_find {α : Type} {c : List Instr} {f : Variable → Eval α} {T : α → List Value}
    (hb : Δ.lookup? x = some b) (h : ∀ v, Computes m n Δ k c (f ⟨b.ty = .double, v⟩) S T) :
    Computes m n Δ k c (Eval.find x >>= f) S T := by
  intro pc L C σ hat henv
  show Sim m n _ (f ((σ.env.lookup? x).getD ⟨false, .zero⟩) σ) _
  rw [henv, Frame.lookup?_env L hb]
  exact h _ pc L C σ hat henv

theorem computes_load (hb : Δ.lookup? x = some b) :
    Computes m n Δ k [.load b.slot.text] (do return (← Eval.find x).value) S fun v => v :: S := by
  intro pc L C σ hat henv
  refine .instr hat.of_cons.1 rfl ?_
  show Sim m n _ (some (.ok ((σ.env.lookup? x).getD ⟨false, .zero⟩).value, σ)) _
  rw [henv, Frame.lookup?_env L hb]
  exact .pure ⟨L, rfl, henv, fun _ _ => rfl⟩

variable (hfits : Fits arity G Δ s Γ M) (hb : Δ.lookup? x = some b)

include hfits hb

theorem keepsHidden_alter (L : Locals) (f : Option Value → Value) :
    L.KeepsHidden k (L.alter b.slot.text f) :=
  fun j _ => L.load_alter_ne f (hfits.text_ne_hidden (Frame.mem_of_lookup? hb).1 j).symm

theorem computes_store (d : Demand) (v : Value) :
    Computes m n Δ k (.store b.slot.text :: if d = .effect then [] else [.load b.slot.text])
      (do Eval.update x fun _ => v; return v) (v :: S) fun v => d.push v S := by
  intro pc L C σ hat henv
  obtain ⟨hstore, hrest⟩ := hat.of_cons
  have henv' : σ.env.update x (fun _ => v) = Δ.env (L.store b.slot.text v) := by
    rw [henv]
    exact (Frame.env_alter L _ _ hb hfits.slots_nodup rfl).symm
  have hkeep : L.KeepsHidden k (L.store b.slot.text v) := keepsHidden_alter hfits hb L _
  refine .store hstore ?_
  by_cases hd : d = .effect
  · subst hd
    exact .pure ⟨_, rfl, henv', hkeep⟩
  · rw [if_neg hd] at hrest ⊢
    refine .load hrest.of_cons.1 ?_
    rw [L.load_store_self]
    refine .pure ⟨_, ?_, henv', hkeep⟩
    dsimp only
    rw [Demand.push_of_ne hd]
    rfl

theorem computes_storeIndex (i v : Value) :
    Computes m n Δ k [.storeIndex b.slot.text] (Eval.update x fun held => .storeAt held i.toInt v)
      (i :: v :: S) fun _ => S := by
  intro pc L C σ hat henv
  have henv' : σ.env.update x (fun held => .storeAt held i.toInt v) =
      Δ.env (L.storeIndex b.slot.text i.toInt v) := by
    rw [henv]
    exact (Frame.env_alter L _ _ hb hfits.slots_nodup (L.storeAt_load _ _ _)).symm
  refine .storeIndex hat.of_cons.1 ?_
  exact .pure ⟨_, rfl, henv', keepsHidden_alter hfits hb L _⟩

/-- A value that is stored at an index and wanted waits in a hidden slot while the index is
evaluated. -/
theorem computes_held {c : List Instr} {index : Eval Value} {h : Nat} (hk : k < h) (v : Value)
    (hindex : Computes m n Δ h c index (v :: S) fun i => i :: v :: S) :
    Computes m n Δ k
      (.store (Slot.hidden h).text :: .load (Slot.hidden h).text ::
        (c ++ [Instr.storeIndex b.slot.text, .load (Slot.hidden h).text]))
      (do
        let i ← index
        Eval.update x fun held => .storeAt held i.toInt v
        return v)
      (v :: S) fun v => v :: S := by
  intro pc L C σ hat henv
  obtain ⟨hstore, hat⟩ := hat.of_cons
  obtain ⟨hload, hat⟩ := hat.of_cons
  obtain ⟨hat₁, hat₂⟩ := hat.of_append
  obtain ⟨hitem, hat₃⟩ := hat₂.of_cons
  have henv₁ : σ.env = Δ.env (L.store (Slot.hidden h).text v) := by
    rw [henv, hfits.env_store_hidden]
  refine .store hstore (.load hload ?_)
  rw [L.load_store_self]
  refine (hindex _ _ C σ hat₁ henv₁).bind fun i σ₂ s₂ _ => ?_
  rintro ⟨L₂, rfl, henv₂, hkeep₂⟩
  have henv₃ : σ₂.env.update x (fun held => .storeAt held i.toInt v) =
      Δ.env (L₂.storeIndex b.slot.text i.toInt v) := by
    rw [henv₂]
    exact (Frame.env_alter L₂ _ _ hb hfits.slots_nodup (L₂.storeAt_load _ _ _)).symm
  have hkeep₃ := keepsHidden_alter (k := h) hfits hb L₂ fun held => Value.storeAt held i.toInt v
  have hheld : (L₂.storeIndex b.slot.text i.toInt v).load (Slot.hidden h).text = v :=
    (hkeep₃ h (Nat.le_refl h)).trans ((hkeep₂ h (Nat.le_refl h)).trans (L.load_store_self _ v))
  refine .storeIndex hitem (.load hat₃.of_cons.1 ?_)
  rw [hheld]
  refine .pure ⟨_, ?_, henv₃, fun j hj => ?_⟩
  · rw [show pc + (_ :: _ :: (c ++ [_, _])).length = pc + 1 + 1 + c.length + 1 + 1 by simp; omega]
    rfl
  · have hlt : j < h := Nat.lt_of_le_of_lt hj hk
    have hother : (Slot.hidden j).text ≠ (Slot.hidden h).text := fun heq =>
      Nat.ne_of_lt hlt (Slot.hidden_injective heq)
    exact (hkeep₃ j (Nat.le_of_lt hlt)).trans
      ((hkeep₂ j (Nat.le_of_lt hlt)).trans (L.load_alter_ne _ hother))

end Variables

/-! ## Values that are stored -/

section Stored

variable {m : Machine} {n k : Nat} {Δ : Frame} {s : Emit.State} {Γ : Scopes} {S : List Value}
  {t : Tree} {ty : Ty}

open Emit

/-- Literals under minus signs are pushed as doubles. -/
theorem HasType.computes_widened :
    ∀ {t : Tree} {ty : Ty}, HasType Γ t ty → ∀ {v : Value}, widened? t = some v →
    Computes m n Δ k (code (expression t .double) s) (pure v) S fun v => v :: S
  | _, _, .number text loc, v, hv => by
    rw [widened?, Option.ite_none_left_eq_some] at hv
    rw [code_number, literal, if_pos (.inr rfl), ← Option.some.inj hv.2]
    exact .one fun _ _ _ _ => rfl
  | _, _, .unary op loc e ty ty' he hty, v, hv => by
    rw [widened?, Option.ite_none_right_eq_some] at hv
    obtain ⟨rfl, hv⟩ := hv
    obtain ⟨w, hw, rfl⟩ := Option.map_eq_some_iff.mp hv
    have hneg (w : Value) : Computes m n Δ k [.neg] (pure w.negate) (w :: S) fun v => v :: S :=
      .one fun _ _ _ _ => rfl
    rw [code_unary]
    exact (he.computes_widened hw).bind hneg
  | _, _, .string .., _, hv | _, _, .var .., _, hv | _, _, .binary .., _, hv
  | _, _, .comma .., _, hv
  | _, _, .assign .., _, hv | _, _, .assignItem .., _, hv | _, _, .call .., _, hv
  | _, _, .index .., _, hv => by
    cases hv

theorem HasType.expression_double {t : Tree} {ty : Ty} (h : HasType Γ t ty)
    (hv : widened? t = none) :
    expression t .double = expression t .value := by
  cases h with
  | number text loc =>
    rw [widened?, ite_eq_left_iff] at hv
    have hd : isDoubleLiteral text := by simpa using hv
    simp [expression, literal, hd, settle]
  | unary op loc e ty ty' he hty =>
    rw [widened?] at hv
    by_cases hop : op = "-"
    · rw [if_pos hop, Option.map_eq_none_iff] at hv
      simp [expression, hop, Demand.ofDouble, he.expression_double hv, settle]
    · simp [expression, hop, settle]
  | _ => simp [expression, nameAt, settle, Demand.plain]

/-- **A value that is stored** is a double where a `double` is declared. What counts as one may
differ from that if the value is no literal. -/
theorem HasType.computes_widen (h : HasType Γ t ty) {x : Eval Value} {marked isDouble : Bool}
    (hm : widened? t = none ∨ marked = isDouble)
    (hx : Computes m n Δ k (code (expression t .value) s) x S fun v => v :: S) :
    Computes m n Δ k (code (expression t (.ofDouble marked)) s) (widen isDouble t x) S
      fun v => v :: S := by
  unfold widen
  cases hv : widened? t with
  | none =>
    cases marked with
    | false => exact hx
    | true =>
      rw [show Demand.ofDouble true = .double from rfl, h.expression_double hv]
      exact hx
  | some v =>
    obtain rfl : marked = isDouble := by simpa [hv] using hm
    cases marked with
    | false => exact hx
    | true => exact h.computes_widened hv

end Stored

/-! ## Expressions -/

/-- A context in which calls of functions do what they mean. -/
structure Runs (m : Machine) (n : Nat) (arity : String → Option Nat) (c : Context) : Prop where
  call : CallsAt m n arity c.call
  rounds_eq : c.rounds = n
  limit_eq : c.limit = m.limit

section Expressions

variable {m : Machine} {n : Nat} {arity : String → Option Nat} {G : Scopes} {Δ : Frame} {Γ : Scopes}
  {M : Marks}
  {c : Context}

open Emit

theorem Demand.plain_of_ne {d : Demand} (h : d ≠ .double) : d.plain = d := by
  cases d with
  | double => exact absurd rfl h
  | effect | value => rfl

theorem slot_le_after {α : Type} (x : Emit α) [Plain x] (s : Emit.State) :
    s.nextSlot ≤ (after x s).nextSlot :=
  (Steady.extend (x := x) s).slot_le

theorem length_evalAll (c : Context) (ts : List Tree) :
    ∀ (σ : Store) (vs : List Value) (σ' : Store), c.evalAll ts σ = some (.ok vs, σ') →
    vs.length = ts.length := by
  induction ts with
  | nil =>
    intro σ vs σ' h
    cases h
    rfl
  | cons t ts ih =>
    intro σ vs σ' h
    rw [Context.evalAll] at h
    obtain ⟨v, σ₁, -, h⟩ := Eval.exists_of_bind h
    obtain ⟨vs, σ₂, hts, h⟩ := Eval.exists_of_bind h
    cases h
    exact congrArg (· + 1) (ih _ _ _ hts)

theorem computes_call (hc : Runs m n arity c) {s : Emit.State} (hs : Fits arity G Δ s Γ M)
    {f : String} {ty : Ty} {params : List (Ty × Bool)}
    (hf : Γ.lookup? f = some (.function ty params)) {vs : List Value}
    (hlen : vs.length = params.length) (k : Nat) (S : List Value) :
    Computes m n Δ k [.call f]
      (match Builtin.ofName? f with
        | some b => b.call c.limit vs
        | none => c.call f vs)
      (vs.reverse ++ S) fun v => if ty = .void then S else v :: S := by
  cases hb : Builtin.ofName? f with
  | some b =>
    obtain ⟨rfl, hparams⟩ := hs.ready.builtin f b ty params hf hb
    rw [hc.limit_eq]
    exact computes_builtin hb (hlen.trans hparams)
  | none =>
    obtain ⟨harity, -, hty⟩ := hs.ready.function f ty params hf hb
    intro pc L C σ hat henv
    refine (hc.call f vs (hlen ▸ harity) hb pc S L C σ hat.of_cons.1).imp fun v σ' s' => ?_
    rintro ⟨rfl, henv'⟩
    refine ⟨L, ?_, henv'.trans henv, fun _ _ => rfl⟩
    dsimp only
    rw [if_neg hty]
    rfl

mutual

/-- **The code of an expression** leaves its value on the stack if it is wanted, and else
nothing. -/
theorem HasType.computes (hc : Runs m n arity c) {t : Tree} {ty : Ty} : HasType Γ t ty →
    t.all indexesValue → t.all M.allows → ∀ {s : Emit.State}, Fits arity G Δ s Γ M →
    ∀ {d : Demand}, d ≠ .double → (d ≠ .effect → ty ≠ .void) → ∀ S : List Value,
    Computes m n Δ s.nextSlot (code (expression t d) s) (c.eval t) S fun v => d.push v S
  | .number text loc, _, _, s, _, d, hd, _, S => by
    rw [code_number, Context.eval]
    refine Computes.andThen (c := [literal text d]) ?_ (computes_dropped d)
    unfold literal literalValue
    by_cases hlit : isDoubleLiteral text
    · rw [if_pos (.inl hlit), if_pos hlit]
      exact .one fun _ _ _ _ => rfl
    · rw [if_neg (by simp [hlit, hd]), if_neg hlit]
      exact .one fun _ _ _ _ => rfl
  | .string text loc, _, _, s, _, d, _, _, S => by
    rw [code_string, Context.eval]
    exact Computes.andThen (c := [.pushString text]) (T := fun v => v :: S)
      (.one fun _ _ _ _ => rfl)
      (computes_dropped d)
  | .var x loc ty isArray hx, _, _, s, hs, d, _, _, S => by
    obtain ⟨b, hb, -⟩ := hs.exists_lookup? hx
    rw [code_name, hs.slotOf_eq hb, nameAt, Context.eval]
    exact (computes_load hb).andThen (computes_dropped d)
  | .unary op loc e ty ty' he hty, hindex, hallows, s, hs, d, hd, _, S => by
    have hoperand := he.computes hc (all_of_mem hindex (by simp)) (all_of_mem hallows (by simp)) hs
      (d := .value) nofun (fun _ => (unaryTy_isValue hty).1.1) S
    rw [code_unary, Context.eval, show (decide (d = .double ∧ op = "-")) = false by simp [hd]]
    exact hoperand.bind fun v => (computes_unaryCode op v).andThen (computes_dropped d)
  | .binary op loc l r ty ty' ty'' hl hr hty, hindex, hallows, s, hs, d, _, _, S => by
    have hleft := hl.computes hc (all_of_mem hindex (by simp)) (all_of_mem hallows (by simp)) hs
      (d := .value) nofun (fun _ => (binaryTy_isValue hty).1.1) S
    have hright (a : Value) := (hr.computes hc (all_of_mem hindex (by simp))
      (all_of_mem hallows (by simp)) (hs.after (expression l .value)) (d := .value) nofun
      (fun _ => (binaryTy_isValue hty).2.1.1) (a :: S)).le (slot_le_after _ s)
    have hop (a b : Value) : Computes m n Δ s.nextSlot [.binary (.ofText op)]
        (pure ((BinOp.ofText op).apply a b)) (b :: a :: S) fun v => v :: S :=
      .one fun _ _ _ _ => rfl
    rw [code_binary, Context.eval]
    exact hleft.bind fun a => (hright a).bind fun b => (hop a b).andThen (computes_dropped d)
  | .comma loc l r ty ty' hl hr, hindex, hallows, s, hs, d, hd, hv, S => by
    have hleft := hl.computes hc (all_of_mem hindex (by simp)) (all_of_mem hallows (by simp)) hs
      (d := .effect) nofun (fun h => absurd rfl h) S
    have hright := (hr.computes hc (all_of_mem hindex (by simp)) (all_of_mem hallows (by simp))
      (hs.after (expression l .effect)) hd hv S).le (slot_le_after _ s)
    rw [code_comma, Context.eval, Demand.plain_of_ne hd]
    exact hleft.bind fun _ => hright
  | .assign loc loc' x value ty ty' isArray hx hv hacc, hindex, hallows, s, hs, d, _, _, S => by
    obtain ⟨b, hb, hty⟩ := hs.exists_lookup? hx
    have hty' := isValue_of_accepts hacc (hs.ready.known x _ hx)
    have hvalue := hv.computes hc (all_of_mem hindex (by simp)) (all_of_mem hallows (by simp)) hs
      (d := .value) nofun (fun _ => hty'.1) S
    have hmark := hs.marked_of_allows hb ⟨rfl, rfl⟩ rfl (all_iff.mp hallows).1
    rw [code_assign, hs.slotOf_eq hb, nameAt, Context.eval]
    refine computes_find hb fun _ => ?_
    exact (hv.computes_widen hmark hvalue).bind fun v => computes_store hs hb d v
  | .assignItem loc loc' loc'' x i value ty ty' hx hi hv
      hacc, hindex, hallows, s, hs, d, _, _, S => by
    obtain ⟨b, hb, hty⟩ := hs.exists_lookup? hx
    have hty' := isValue_of_accepts hacc (hs.ready.known x _ hx)
    have hvalue := hv.computes hc (all_of_mem hindex (by simp)) (all_of_mem hallows (by simp)) hs
      (d := .value) nofun (fun _ => hty'.1) S
    have hmark := hs.marked_of_allows hb ⟨rfl, rfl⟩ rfl (all_iff.mp hallows).1
    have hstored := hv.computes_widen hmark hvalue
    have hindex' : i.all indexesValue :=
      all_of_mem (all_of_mem hindex mem_cons_self) (by simp)
    have hallows' : i.all M.allows := all_of_mem (all_of_mem hallows mem_cons_self) (by simp)
    have hs' := hs.after (expression value (s.demandOf (s.slotOf x)))
    by_cases hd : d = .effect
    · subst hd
      have hposition (v : Value) := (hi.computes hc hindex' hallows' hs' (d := .value) nofun
        (fun _ => Ty.noConfusion) (v :: S)).le (slot_le_after _ s)
      rw [code_assignItem_effect, hs.slotOf_eq hb, Context.eval]
      refine computes_find hb fun _ => hstored.bind fun v => ?_
      exact (hs.slotOf_eq hb ▸ hposition v).bind fun i =>
        (computes_storeIndex hs hb i v).bind fun _ => .nil rfl
    · have hposition (v : Value) :=
        hi.computes hc hindex' hallows' (hs'.after hiddenSlot) (d := .value)
        nofun (fun _ => Ty.noConfusion) (v :: S)
      rw [code_assignItem _ _ _ _ _ _ _ _ hd, hs.slotOf_eq hb, Context.eval]
      refine computes_find hb fun _ => hstored.bind fun v => ?_
      have hheld := computes_held hs hb (Nat.lt_succ_of_le (slot_le_after _ s)) v
        (hs.slotOf_eq hb ▸ hposition v)
      rw [show (fun v => d.push v S) =
        fun v => v :: S from funext fun v => Demand.push_of_ne hd v S]
      exact hheld
  | .call loc loc' f args ty params hf hargs, hindex, hallows, s, hs, d, _, hv, S => by
    have hvalues := hargs.computes hc (fun a ha => all_of_mem hindex (mem_cons_of_mem _ ha))
      (fun a ha => all_of_mem hallows (mem_cons_of_mem _ ha)) (hs.ready.params_isValue hf) hs S
    have htail : (if d = .effect ∧ (ty != .void) = true then [Instr.pop] else []) =
        if ty = .void then [] else dropped d := by
      by_cases hty : ty = .void <;> simp [hty, dropped]
    rw [code_call, hs.ready.leavesValue_eq hf, htail, ← singleton_append, Context.eval]
    refine hvalues.bind_of (length_evalAll c args) fun vs hlen => ?_
    refine (computes_call hc hs hf (hlen.trans hargs.length_eq) _ S).andThen fun v => ?_
    by_cases hty : ty = .void
    · obtain rfl : d = .effect := by
        by_contra hd
        exact hv hd hty
      rw [if_pos hty, if_pos hty]
      exact .nil rfl
    · rw [if_neg hty, if_neg hty]
      exact computes_dropped d v
  | .index loc base i ty hbase hk hi _, hindex, hallows, s, hs, d, _, _, S => by
    have hvoid : ty ≠ .void := by
      refine hbase.ne_void_of_chainBase hs.ready hk ?_
      rw [← chainBase_index loc base i]
      simpa [indexesValue] using (all_iff.mp hindex).1
    have hleft := hbase.computes hc (all_of_mem hindex (by simp)) (all_of_mem hallows (by simp)) hs
      (d := .value) nofun (fun _ => hvoid) S
    have hright (a : Value) := (hi.computes hc (all_of_mem hindex (by simp))
      (all_of_mem hallows (by simp)) (hs.after (expression base .value)) (d := .value) nofun
      (fun _ => Ty.noConfusion) (a :: S)).le (slot_le_after _ s)
    have hload (a j : Value) : Computes m n Δ s.nextSlot [.loadIndex] (pure (a.loadAt j.toInt))
        (j :: a :: S) fun v => v :: S := .one fun _ _ _ _ => rfl
    rw [code_index, Context.eval]
    exact hleft.bind fun a => (hright a).bind fun j => (hload a j).andThen (computes_dropped d)

theorem HasArgs.computes (hc : Runs m n arity c) {params : List (Ty × Bool)} {args : List Tree} :
    HasArgs Γ params args →
    (∀ a ∈ args, a.all indexesValue) → (∀ a ∈ args, a.all M.allows) →
    (∀ p ∈ params, p.1.IsValue) → ∀ {s : Emit.State}, Fits arity G Δ s Γ M → ∀ S : List Value,
    Computes m n Δ s.nextSlot (code (values args) s) (c.evalAll args) S fun vs => vs.reverse ++ S
  | .nil, _, _, _, s, _, S => by
    rw [code_values_nil, Context.evalAll]
    exact .nil rfl
  | .cons ty ty' isArray params arg args harg hacc _ hargs, hindex, hallows, hparams, s, hs, S => by
    obtain ⟨hindex, hindex'⟩ := forall_mem_cons.mp hindex
    obtain ⟨hallows, hallows'⟩ := forall_mem_cons.mp hallows
    obtain ⟨hty, hparams⟩ := forall_mem_cons.mp hparams
    have hone := harg.computes hc hindex hallows hs (d := .value) nofun
      (fun _ => (isValue_of_accepts hacc hty).1) S
    have hmore (v : Value) := (hargs.computes hc hindex' hallows' hparams
      (hs.after (expression arg .value)) (v :: S)).le (slot_le_after _ s)
    have hlast (v : Value) (vs : List Value) : Computes m n Δ s.nextSlot [] (pure (v :: vs))
        (vs.reverse ++ v :: S) fun vs => vs.reverse ++ S := .nil (by simp)
    rw [code_values_cons, Context.evalAll]
    refine hone.bind fun v => ?_
    rw [← append_nil (code (values args) _)]
    exact (hmore v).bind fun vs => hlast v vs

end

end Expressions

end Stacklet
