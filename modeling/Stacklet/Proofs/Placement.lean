import Stacklet.Proofs.Layout.Code
import Stacklet.Proofs.Parsing.Progress
import Stacklet.Proofs.Safety
import Stacklet.Proofs.Scanning
/-!
# Diagnostics stand at tokens

A relation of places that holds of the places of the tokens, each with itself, is carried by the
lemmas on layout to all errors and instructions, so these stand at tokens too.

* `parse_placed`: the nodes of a parsed tree stand at tokens, and so do the errors of syntax.
* `typeErrors_placed`, `lower_placed`: typing errors and instructions stand where nodes do.
* `Tree.Indoors`: a run is in the code of functions, and so are the calls that wait.
  `Tree.Indoors.step`, `Tree.Indoors.steps`: it stays there.
* **`diagnostics_placed`**: errors of syntax, errors of types and faults of runs stand at tokens.
-/

namespace Stacklet

open List

/-- The places of the tokens of a source text. -/
def tokenLocs (source : String) : List Loc := (Token.scan source).map Token.loc

/-! ## Trees -/

/-- Places that are in a list. -/
def At (locs : List Loc) (loc _ : Loc) : Prop := loc ∈ locs

variable {source : String} {locs : List Loc}

theorem Parser.ErrorsLike.placed {es es' : List (Located SyntaxError)}
    (h : ErrorsLike (At locs) es es') :
    ∀ e ∈ es, e.loc ∈ locs := by
  induction h with
  | nil => exact fun _ h => nomatch h
  | cons _ _ _ _ _ _ hloc _ ih => exact forall_mem_cons.mpr ⟨hloc, ih⟩

theorem placed_of_forall₂ {α β : Type} (place : α → Loc) {R : α → β → Prop}
    (hplace : ∀ a b, R a b → place a ∈ locs) {as : List α} {bs : List β}
    (h : List.Forall₂ R as bs) : ∀ a ∈ as, place a ∈ locs :=
  ((forall₂_and_left (p := fun a => place a ∈ locs) as bs).mp
    (h.imp fun a b hab => ⟨hplace a b hab, hab⟩)).1

theorem scan_ne_nil (source : String) : Token.scan source ≠ [] := by
  obtain ⟨ps, w, -, -, htokens, -⟩ := Token.exists_pieces source
  simp [htokens]

theorem fallback_mem (source : String) :
    (Parser.State.ofTokens (Token.scan source)).fallback.loc ∈ tokenLocs source := by
  have hlast := getLast?_eq_some_getLast (scan_ne_nil source)
  have hloc : (Parser.State.ofTokens (Token.scan source)).fallback.loc =
      ((Token.scan source).getLast (scan_ne_nil source)).loc := by
    simp [Parser.State.ofTokens, hlast]
  rw [hloc]
  exact mem_map_of_mem (getLast_mem _)

/-- **The parser uses places of tokens only**, but for the root of the tree. -/
theorem parse_placed (source : String) :
    Tree.AllLike (At (tokenLocs source)) (parse source).1.children (parse source).1.children ∧
      ∀ e ∈ (parse source).2.toList, e.loc ∈ tokenLocs source := by
  have hplaced : ∀ t ∈ (Parser.State.ofTokens (Token.scan source)).fallback :: Token.scan source,
      t.loc ∈ tokenLocs source :=
    forall_mem_cons.mpr ⟨fallback_mem source, fun t ht => mem_map_of_mem ht⟩
  have hlevel : (Parser.State.ofTokens (Token.scan source)).Level (At (tokenLocs source))
    (At (tokenLocs source))
      (.ofTokens (Token.scan source)) :=
        ⟨rfl, .refl rfl fun t ht => ⟨hplaced t ht, hplaced t ht⟩, rfl, fallback_mem source, .nil⟩
  have hle := (Parser.State.ofTokens (Token.scan source)).left_le
  obtain ⟨htrees, hafter⟩ := Parser.items_upTo_lockstep hlevel hle hle hle hle
  exact ⟨htrees, hafter.errors_like.placed⟩

theorem exists_relocated (source : String) :
    ∃ loc, Tree.Like (At (tokenLocs source)) { (parse source).1 with loc }
      { (parse source).1 with loc } :=
  ⟨_, .mk _ _ _ _ _ _ _ (fallback_mem source) (parse_placed source).1⟩

theorem typeErrors_placed (source : String) :
    ∀ e ∈ (parse source).1.typeErrors.toList, e.loc ∈ tokenLocs source := by
  obtain ⟨loc, hlike⟩ := exists_relocated source
  exact placed_of_forall₂ Located.loc (fun _ _ h => h.2) hlike.typeErrors

theorem lower_placed (source : String) :
    (parse source).1.lower.locs.size = (parse source).1.lower.code.size ∧
    ∀ loc ∈ (parse source).1.lower.locs.toList, loc ∈ tokenLocs source := by
  obtain ⟨loc, hlike⟩ := exists_relocated source
  obtain ⟨-, -, hlocs, hsize⟩ := hlike.lower
  exact ⟨hsize, placed_of_forall₂ id (fun _ _ h => h) hlocs⟩

theorem one_le_line_of_mem {loc : Loc} (h : loc ∈ tokenLocs source) : 1 ≤ loc.line := by
  obtain ⟨t, ht, rfl⟩ := mem_map.mp h
  obtain ⟨ps, w, -, -, htokens, hps⟩ := Token.exists_pieces source
  rw [htokens, mem_append, mem_map, mem_singleton] at ht
  rcases ht with ⟨p, hp, rfl⟩ | rfl
  · obtain ⟨front, back, heq⟩ := append_of_mem hp
    rw [(hps front p back heq).loc]
    exact Nat.le_add_right 1 _
  · exact Nat.le_add_right 1 _

/-! ## Runs -/

namespace Tree

variable {N : String → Prop} {t : Tree} {s s' : Machine.State} {entry : String} {limit : Nat}

theorem InFunction.lt_size {i : Nat} (h : t.InFunction i) : i < t.lower.code.size := by
  obtain ⟨k, -, -, -, hin⟩ := h
  obtain ⟨d, -, hd, hcode⟩ := hin.exists_offset
  exact (Array.getElem?_eq_some_iff.mp (hcode.trans (getElem?_eq_getElem hd))).1

theorem InFunction.succ {i : Nat} {instr : Instr} (h : t.InFunction i)
    (hi : t.lower.code[i]? = some instr) (hret : instr.isRet = false) : t.InFunction (i + 1) := by
  obtain ⟨k, c, hk, hc, hin⟩ := h
  exact ⟨k, c, hk, hc, inItem_succ hk hc hin hi hret⟩

theorem inFunction_of_lookup {f : String} {n j : Nat} (hn : t.arity f = some n)
    (hj : t.lower.labels.lookup f = some j) :
    t.InFunction j := by
  obtain ⟨k, c, hk, hin, hl | ⟨hc, -, -⟩⟩ :=
    exists_label_cases (Program.getElem?_of_lookup_labels hj)
  · exact absurd ((arity_of_mem_minted hl).symm.trans hn) (Option.some_ne_none n).symm
  · exact ⟨k, c, hk, hc, hin⟩

/-- A run is in the code of functions, and the calls that wait go on there. -/
structure Indoors (t : Tree) (s : Machine.State) : Prop where
  running : t.InFunction s.ip
  waiting : ∀ caller ∈ s.callers, t.InFunction caller.returnTo

theorem Indoors.start {n : Nat} (hn : t.arity entry = some n) (limit : Nat) (s : Machine.State) :
    ∃ s₀, (Machine.load t.lower entry limit).start? s = some s₀ ∧ t.Indoors s₀ := by
  obtain ⟨j, hj⟩ := Program.exists_lookup_labels (exists_label_of_arity hn).choose_spec
  exact ⟨{ s.clear with ip := j }, congrArg (Option.map _) hj, inFunction_of_lookup hn hj,
    forall_mem_nil _⟩

/-- **A step stays in the code of functions.** -/
theorem Indoors.step (ht : TypedProgram N t) (h : t.Indoors s)
    (hstep : (Machine.load t.lower entry limit).step s = .next s') : t.Indoors s' := by
  obtain ⟨instr, hi, -, hmove⟩ := Machine.move_of_step hstep
  have hi : t.lower.code[s.ip]? = some instr := hi
  cases hmove with
  | onward _ _ _ hon =>
    have hret : instr.isRet = false := by
      cases instr with
      | ret => cases hon
      | _ => rfl
    exact ⟨h.running.succ hi hret, h.waiting⟩
  | jump l ip hl hto =>
    -- the label stands in the code of the same function
    obtain ⟨k, c, hk, hc, hin⟩ := h.running
    obtain ⟨hmade, k', j, hin', hinj, hj⟩ := t.exists_label_of_jump hi hl
    obtain rfl : k = k' := hin.unique hin'
    obtain rfl : ip = j :=
      (t.existsUnique_label hmade).unique (Program.getElem?_of_lookup_labels hto) hj
    exact ⟨⟨k, c, hk, hc, hinj⟩, h.waiting⟩
  | call f ip hf hb hto =>
    subst hf
    obtain ⟨n, hn⟩ := known_of_call ht hi hb
    exact ⟨inFunction_of_lookup hn hto, forall_mem_cons.mpr ⟨h.running.succ hi rfl, h.waiting⟩⟩
  | ret caller callers _ hcallers =>
    have hwaiting := h.waiting
    rw [hcallers, forall_mem_cons] at hwaiting
    exact ⟨hwaiting.1, hwaiting.2⟩

theorem Indoors.steps (ht : TypedProgram N t) (h : t.Indoors s)
    (hsteps : (Machine.load t.lower entry limit).Steps s s') : t.Indoors s' := by
  induction hsteps with
  | refl => exact h
  | tail _ hstep ih => exact ih.step ht hstep

theorem ip_lt_size_of_run (ht : TypedProgram N t) {n fuel : Nat} {r : Machine.Finished}
    (hn : t.arity entry = some n) (hrun : (Machine.load t.lower entry limit).run fuel s = some r) :
    r.state.ip < t.lower.code.size := by
  obtain ⟨s₀, hstart, hindoors⟩ := Indoors.start hn limit s
  obtain ⟨s', hsteps, hip⟩ := Machine.exists_steps_of_run hstart hrun
  rw [hip]
  exact (hindoors.steps ht hsteps).running.lt_size

end Tree

/-- **Diagnostics stand at tokens.** Errors of syntax and errors of types stand at tokens of the
source text. If it is accepted, every instruction has a place, and the fault of a run that starts at
one of its functions stands at a token, so not nowhere. -/
theorem diagnostics_placed (source : String) :
    (∀ e ∈ (parse source).2, e.loc ∈ tokenLocs source) ∧
    (∀ e ∈ (parse source).1.typeErrors, e.loc ∈ tokenLocs source) ∧
    ∀ p, compile source = .ok p → p.locs.size = p.code.size ∧
      ∀ (entry : String) (limit : Nat) (fuel : Nat) (s : Machine.State) (r : Machine.Finished)
        (f : Located Fault),
        (∃ c ∈ (parse source).1.functions, c.text = entry) →
        (Machine.load p entry limit).run fuel s = some r →
        r.fault? (Machine.load p entry limit) = some f →
        f.loc ∈ tokenLocs source ∧ f.loc ≠ .nowhere := by
  refine ⟨fun e he => (parse_placed source).2 e he.val, fun e he => typeErrors_placed source e
    he.val, fun p hp => ?_⟩
  obtain ⟨ht, rfl⟩ := compile_typed hp
  obtain ⟨hsize, hlocs⟩ := lower_placed source
  refine ⟨hsize, ?_⟩
  rintro _ limit fuel s r f ⟨c, hc, rfl⟩ hrun hf
  have hn : (parse source).1.arity c.text = some (parametersOf c.children).length := by
    rw [Tree.arity, Tree.function?_text ht hc]
    rfl
  have hlt := hsize ▸ Tree.ip_lt_size_of_run ht hn hrun
  have hloc : f.loc = (parse source).1.lower.locAt r.state.ip := by
    unfold Machine.Finished.fault? at hf
    split at hf
    · cases hf
    · cases hf
      rfl
  have hmem : f.loc ∈ tokenLocs source := by
    rw [hloc, Program.locAt, Array.getElem?_eq_getElem hlt]
    exact hlocs _ (Array.getElem_mem hlt).val
  refine ⟨hmem, fun hnowhere => ?_⟩
  have := one_le_line_of_mem hmem
  rw [hnowhere] at this
  cases this

/-- A source that ends too early, within a statement that uses an undeclared name. -/
def cutOff : String := "fn int main() \x7b return x"

/-- The source that ends too early has errors of both kinds, and a run that finds no argument for
the parameter of its entry faults. All of this stands at tokens. -/
theorem cutOff_diagnostics_placed :
    (∃ e ∈ (parse cutOff).2, e.loc ∈ tokenLocs cutOff) ∧
    (∃ e ∈ (parse cutOff).1.typeErrors, e.loc ∈ tokenLocs cutOff) ∧
    ∃ p r f, compile entryWithParameter = .ok p ∧ p.locs.size = p.code.size ∧
      (∃ c ∈ (parse entryWithParameter).1.functions, c.text = "main") ∧
      (Machine.load p).run 10 { input := ⟨[], false⟩, sink := {} } = some r ∧
      r.fault? (Machine.load p) = some f ∧
      f.loc ∈ tokenLocs entryWithParameter ∧ f.loc ≠ .nowhere := by
  have herrors : 0 < (parse cutOff).2.size ∧ 0 < (parse cutOff).1.typeErrors.size := by
    rw [parse_ofList cutOff rfl]
    decide +kernel
  have haccepted : (parse entryWithParameter).2.isEmpty ∧
      (parse entryWithParameter).1.typeErrors.isEmpty ∧
      ∃ c ∈ (parse entryWithParameter).1.functions, c.text = "main" := by
    rw [parse_ofList entryWithParameter rfl]
    decide +kernel
  have hrun : (((Machine.load (parse entryWithParameter).1.lower).run 10
      { input := ⟨[], false⟩, sink := {} }).bind
      (Machine.Finished.fault? (Machine.load (parse entryWithParameter).1.lower))).isSome := by
    rw [parse_ofList entryWithParameter rfl]
    decide +kernel
  obtain ⟨hparsing, htyping, -⟩ := diagnostics_placed cutOff
  obtain ⟨hparse, htypes, hmain⟩ := haccepted
  have hcompile := compile_of_isEmpty hparse htypes
  obtain ⟨hsize, hfaults⟩ := (diagnostics_placed entryWithParameter).2.2 _ hcompile
  obtain ⟨f, hf⟩ := Option.isSome_iff_exists.mp hrun
  obtain ⟨r, hr, hf⟩ := Option.bind_eq_some_iff.mp hf
  refine ⟨⟨_, Array.getElem_mem herrors.1, hparsing _ (Array.getElem_mem herrors.1)⟩,
    ⟨_, Array.getElem_mem herrors.2, htyping _ (Array.getElem_mem herrors.2)⟩, ?_⟩
  exact ⟨_, r, f, hcompile, hsize, hmain, hr, hf, hfaults "main" _ 10 _ r f hmain hr hf⟩

end Stacklet
