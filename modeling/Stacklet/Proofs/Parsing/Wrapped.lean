import Stacklet.Proofs.Parsing.Rules
/-!
# Names in parentheses

The rules put calls and indices behind a name that stands without parentheses.

* `CallsWrapped`: whether a name in parentheses is called or indexed.
* `Reading`: watches the parentheses around names. `Passes` says between which readings the
  sequences of a language lead, with one rule for each way to put languages together.
* **`Phrase.not_callsWrapped_of_mem`**: what the rules generate is free of it.
-/

namespace Stacklet

open scoped Computability

/-- Whether a token of this kind ends an operand. What opens behind it is a call or an index. -/
def Token.Kind.endsOperand : Token.Kind → Bool
  | .name | .number | .string | .symbol .closeParen | .symbol .closeBracket => true
  | _ => false

/-- Whether a token of this kind neither ends an operand nor opens a call or an index. -/
def Token.Kind.isApart (k : Token.Kind) : Bool :=
  !k.endsOperand && k != .symbol .openParen && k != .symbol .openBracket

theorem Token.Kind.endsOperand_of_isApart {k : Token.Kind} (h : k.isApart) :
    k.endsOperand = false := by
  simp only [isApart, Bool.and_eq_true, Bool.not_eq_true'] at h
  exact h.1.1

/-- Whether an operand may start behind these tokens. -/
def Fresh (ks : List Token.Kind) : Prop := ∀ k ∈ ks.getLast?, k.endsOperand = false

/-- A name in `m` pairs of parentheses. -/
def wrapped (m : Nat) : List Token.Kind :=
  List.replicate m (.symbol .openParen) ++ .name :: List.replicate m (.symbol .closeParen)

/-- **A name in parentheses is called or indexed.** -/
def CallsWrapped (ks : List Token.Kind) : Prop :=
  ∃ (us vs : List Token.Kind) (m : Nat) (s : Symbol), ks = us ++ wrapped (m + 1) ++
    .symbol s :: vs ∧ Fresh us ∧
    (s = .openParen ∨ s = .openBracket)

/-! ## Watching parentheses -/

/-- What was read last. -/
inductive Reading where
  /-- As many opening parentheses, where an operand may start. -/
  | opened (k : Nat)
  /-- A name, with so many parentheses in front of it still to be closed and so many closed. -/
  | named (left closed : Nat)
  | operand

namespace Reading

/-- Reads a token. It fails where a name in parentheses is called or indexed. -/
def next (q : Reading) : Token.Kind → Option Reading
  | .symbol .openParen =>
    match q with
    | opened k => some (opened (k + 1))
    | named _ (_ + 1) => none
    | _ => some (opened 0)
  | .symbol .openBracket =>
    match q with
    | named _ (_ + 1) => none
    | _ => some (opened 0)
  | .symbol .closeParen =>
    match q with
    | named (left + 1) closed => some (named left (closed + 1))
    | _ => some operand
  | .name =>
    match q with
    | opened k => some (named k 0)
    | _ => some operand
  | k => if k.endsOperand then some operand else some (opened 0)

def run (q : Reading) (ks : List Token.Kind) : Option Reading := ks.foldlM next q

theorem run_append (q : Reading) (ks js : List Token.Kind) :
    q.run (ks ++ js) = q.run ks >>= fun q' => q'.run js :=
  List.foldlM_append

theorem run_opening (k m : Nat) :
    (opened k).run (List.replicate m (.symbol .openParen)) = some (opened (k + m)) := by
  induction m generalizing k with
  | zero => rfl
  | succ m ih =>
    show (opened (k + 1)).run _ = _
    rw [ih, Nat.add_right_comm, Nat.add_assoc]

theorem run_closing (k j m : Nat) :
    (named (k + m) j).run (List.replicate m (.symbol .closeParen)) = some (named k (j + m)) := by
  induction m generalizing j with
  | zero => rfl
  | succ m ih =>
    show (named (k + m) (j + 1)).run _ = _
    rw [ih, Nat.add_right_comm, Nat.add_assoc]

theorem run_wrapped (k m : Nat) : (opened k).run (wrapped m) = some (named k m) := by
  rw [wrapped, run_append, run_opening]
  show (named (k + m) 0).run _ = _
  rw [run_closing, Nat.zero_add]

theorem opened_of_next {q q' : Reading} {k : Token.Kind} (h : q.next k = some q')
    (hk : k.endsOperand = false) : ∃ j, q' = opened j := by
  unfold next at h
  split at h
  · split at h <;> cases h <;> exact ⟨_, rfl⟩
  · split at h <;> cases h
    exact ⟨0, rfl⟩
  · cases hk
  · cases hk
  · rw [hk] at h
    exact ⟨0, (Option.some.inj h).symm⟩

theorem opened_of_run {q : Reading} {ks : List Token.Kind} (h : (opened 0).run ks = some q)
    (hfresh : Fresh ks) : ∃ j, q = opened j := by
  rcases List.eq_nil_or_concat ks with rfl | ⟨us, k, rfl⟩
  · exact ⟨0, (Option.some.inj h).symm⟩
  · rw [List.concat_eq_append] at h hfresh
    rw [run_append] at h
    obtain ⟨q', -, h⟩ := Option.bind_eq_some_iff.mp h
    obtain ⟨q'', hnext, h⟩ := Option.bind_eq_some_iff.mp h
    obtain rfl := Option.some.inj h
    exact opened_of_next hnext (hfresh k (by simp))

theorem next_of_isApart (q : Reading) {k : Token.Kind} (h : k.isApart) :
    q.next k = some (opened 0) := by
  unfold next
  split
  iterate 4 cases h
  rw [Token.Kind.endsOperand_of_isApart h]
  rfl

/-- What can be read to its end calls no name in parentheses. -/
theorem not_callsWrapped_of_run {q : Reading} {ks : List Token.Kind}
    (h : (opened 0).run ks = some q) : ¬CallsWrapped ks := by
  rintro ⟨us, vs, m, s, rfl, hfresh, hs⟩
  rw [run_append, run_append] at h
  obtain ⟨q', hus, hvs⟩ := Option.bind_eq_some_iff.mp h
  obtain ⟨q'', hus, hwrapped⟩ := Option.bind_eq_some_iff.mp hus
  obtain ⟨j, rfl⟩ := opened_of_run hus hfresh
  obtain rfl := Option.some.inj ((run_wrapped j (m + 1)).symm.trans hwrapped)
  have hnext : (named j (m + 1)).next (.symbol s) = none := by
    rcases hs with rfl | rfl <;> rfl
  have hnone : (named j (m + 1)).run (.symbol s :: vs) = none := by
    rw [run, List.foldlM_cons, hnext]; rfl
  rw [hnone] at hvs
  cases hvs

/-! ### Languages -/

/-- Behind an operand, with at most `k` parentheses to close around a name. -/
def Ended (k : Nat) : Reading → Prop
  | opened _ => False
  | named left _ => left ≤ k
  | operand => True

/-- The same, where a suffix may stand. -/
def Based (k : Nat) : Reading → Prop
  | opened _ => False
  | named left closed => left ≤ k ∧ closed = 0
  | operand => True

theorem Based.ended {k : Nat} : ∀ {q : Reading}, Based k q → Ended k q
  | named _ _, h => h.1
  | operand, _ => trivial

theorem Ended.mono {j k : Nat} (hjk : j ≤ k) : ∀ {q : Reading}, Ended j q → Ended k q
  | named _ _, h => Nat.le_trans h hjk
  | operand, _ => trivial

/-- Reading what is in `l` leads from `P` to `Q`. -/
def Passes (P : Reading → Prop) (l : Language Token.Kind) (Q : Reading → Prop) : Prop :=
  ∀ ks ∈ l, ∀ q, P q → ∃ q', q.run ks = some q' ∧ Q q'

namespace Passes

variable {P P' Q Q' R : Reading → Prop} {l m : Language Token.Kind} {k : Nat}

theorem mono (h : Passes P l Q) (hP : ∀ q, P' q → P q) (hQ : ∀ q, Q q → Q' q) : Passes P' l Q' := by
  intro ks hks q hq
  obtain ⟨q', hrun, hq'⟩ := h ks hks q (hP q hq)
  exact ⟨q', hrun, hQ q' hq'⟩

theorem mul (hl : Passes P l Q) (hm : Passes Q m R) : Passes P (l * m) R := by
  rintro _ ⟨ks, hks, js, hjs, rfl⟩ q hq
  obtain ⟨q', hrun, hq'⟩ := hl ks hks q hq
  obtain ⟨q'', hrun', hq''⟩ := hm js hjs q' hq'
  refine ⟨q'', ?_, hq''⟩
  show q.run (ks ++ js) = _
  rw [run_append, hrun]
  exact hrun'

theorem add (hl : Passes P l Q) (hm : Passes P m Q) : Passes P (l + m) Q := by
  rintro ks (hks | hks)
  · exact hl ks hks
  · exact hm ks hks

theorem one : Passes P 1 P := by
  rintro ks rfl q hq
  exact ⟨q, rfl, hq⟩

theorem kstar (h : Passes P l P) : Passes P l∗ P := by
  have hle : l∗ ≤ ({ks | ∀ q, P q → ∃ q', q.run ks = some q' ∧ P q'} : Language Token.Kind) :=
    kstar_le_of_mul_le_right (fun ks hks => one ks hks) (mul h fun _ hks => hks)
  exact fun ks hks => hle hks

theorem single {k : Token.Kind} (h : ∀ q, P q → ∃ q', q.next k = some q' ∧ Q q') :
    Passes P (Phrase.single k) Q := by
  rintro _ rfl q hq
  obtain ⟨q', hnext, hq'⟩ := h q hq
  refine ⟨q', ?_, hq'⟩
  show (q.next k >>= fun q' => q'.run []) = _
  rw [hnext]
  rfl

theorem apart {k : Token.Kind} (hk : k.isApart) : Passes P (Phrase.single k) (· = opened 0) :=
  single fun q _ => ⟨_, next_of_isApart q hk, rfl⟩

theorem sign {s : Symbol} (hs : (Token.Kind.symbol s).isApart) :
    Passes P (Phrase.sign s) (· = opened 0) := apart hs

theorem word {k : Keyword} : Passes P (Phrase.word k) (· = opened 0) := apart rfl

theorem type : Passes P Phrase.type (· = opened 0) := by
  rintro _ ⟨k, hk, rfl⟩
  refine apart (k := k) ?_ [k] rfl
  match k, hk with
  | .keyword _, _ => rfl

theorem anyOf {ss : List Symbol} (hss : ss.all fun s => (Token.Kind.symbol s).isApart) :
    Passes P (Phrase.anyOf ss) (· = opened 0) := by
  rintro _ ⟨s, hs, rfl⟩
  exact apart (List.all_eq_true.mp hss s hs) _ rfl

theorem name : Passes (· = opened k) Phrase.name (· = named k 0) :=
  single fun _ hq => ⟨_, by rw [hq]; rfl, rfl⟩

theorem inParens (h : Passes (· = opened (k + 1)) l (Ended (k + 1))) :
    Passes (· = opened k) (Phrase.inParens l) (Ended k) := by
  refine mul (mul (Q := (· = opened (k + 1))) (single fun _ hq => ⟨_, by rw [hq]; rfl, rfl⟩) h)
    (single fun q hq => ?_)
  match q, hq with
  | named 0 _, _ => exact ⟨operand, rfl, trivial⟩
  | named (left + 1) closed, hq => exact ⟨named left (closed + 1), rfl, Nat.le_of_succ_le_succ hq⟩
  | operand, _ => exact ⟨operand, rfl, trivial⟩

theorem called (h : Passes (· = opened 0) l fun q => q = opened 0 ∨ Ended 0 q) :
    Passes (Based k) (Phrase.inParens l) (· = operand) := by
  refine mul (mul (single fun q hq => ?_) h) (single fun q hq => ?_)
  · match q, hq with
    | named _ 0, _ | operand, _ => exact ⟨opened 0, rfl, rfl⟩
  · match q, hq with
    | opened _, _ | named 0 _, _ | operand, _ => exact ⟨operand, rfl, rfl⟩

theorem inBrackets (h : Passes (· = opened 0) l Q) :
    Passes (Based k) (Phrase.inBrackets l) (· = operand) := by
  refine mul (mul (single fun q hq => ?_) h) (single fun q _ => ⟨operand, ?_, rfl⟩)
  · match q, hq with
    | named _ 0, _ | operand, _ => exact ⟨opened 0, rfl, rfl⟩
  · rfl

theorem commaList (h : Passes (· = opened 0) l (Ended 0)) :
    Passes (· = opened 0) (Phrase.commaList l) (Ended 0) :=
  mul h (kstar (mul (sign rfl) h))

end Passes

/-! ### Phrases -/

open Phrase

/-- Where the tokens of a phrase start. -/
def atStart (k : Nat) : Phrase → Reading → Prop
  | block, _ | varDecls, _ => True
  | expression, q | assignment, q | target, q | equality, q | relational, q | additive, q | term, q
  | unary, q | suffixed, q
  | primary, q => q = opened k
  | _, q => q = opened 0

/-- Where the tokens of a phrase end. -/
def atEnd (k : Nat) : Phrase → Reading → Prop
  | expression, q | assignment, q | target, q | equality, q | relational, q | additive, q | term, q
  | unary, q | suffixed, q
  | primary, q => Ended k q
  | var, q | arg, q => Ended 0 q
  | _, q => q = opened 0

/-- What can be read as the tokens of a phrase. -/
def readable (p : Phrase) : Language Token.Kind :=
  {ks | ∀ k q, atStart k p q → ∃ q', q.run ks = some q' ∧ atEnd k p q'}

theorem passes_readable (p : Phrase) (k : Nat) : Passes (atStart k p) (readable p) (atEnd k p) :=
  fun _ hks => hks k

theorem passes_chain {ss : List Symbol} (hss : ss.all fun s => (Token.Kind.symbol s).isApart)
    {l : Language Token.Kind} (h : ∀ k, Passes (· = opened k) l (Ended k)) (k : Nat) :
    Passes (· = opened k) (chain ss l) (Ended k) :=
  .mul (h k)
    (.kstar (.mul (.anyOf hss) ((h 0).mono (fun _ h => h) fun _ hq => hq.mono (Nat.zero_le k))))

theorem passes_arguments {l : Language Token.Kind} (h : Passes (· = opened 0) l (Ended 0)) :
    Passes (· = opened 0) (1 + commaList l) fun q => q = opened 0 ∨ Ended 0 q :=
  .add (.mono .one (fun _ h => h) fun _ h => .inl h)
    (.mono (.commaList h) (fun _ h => h) fun _ h => .inr h)

theorem passes_index {k : Nat} : Passes (Based k) (index readable) (· = operand) :=
  .inBrackets (passes_readable expression 0)

theorem passes_suffixes {k : Nat} : Passes (Based k) (call readable + index readable)∗ (Based k) :=
  .kstar (.mono (.add (.called (passes_arguments (passes_readable assignment 0))) passes_index)
    (fun _ h => h) fun _ h => h ▸ trivial)

theorem passes_name {k : Nat} : Passes (· = opened k) name (Based k) :=
  .mono .name (fun _ h => h) fun _ h => h ▸ ⟨Nat.le_refl k, rfl⟩

theorem passes_condition {P : Reading → Prop} {w : Keyword} :
    Passes P (word w * Phrase.inParens (readable expression)) (Ended 0) :=
  .mul .word (.inParens (passes_readable expression 1))

theorem passes_block {P : Reading → Prop} : Passes P (readable block) (· = opened 0) :=
  .mono (passes_readable block 0) (fun _ _ => trivial) fun _ h => h

theorem passes_rule (k : Nat) (p : Phrase) :
    Passes (atStart k p) (rule readable p) (atEnd k p) := by
  have hoptional (j : Nat) : Passes (· = opened j) (1 + readable expression) fun q =>
      q = opened j ∨ Ended j q :=
    .add (.mono .one (fun _ h => h) fun _ h => .inl h)
      (.mono (passes_readable expression j) (fun _ h => h) fun _ h => .inr h)
  cases p with
  | program =>
    exact .kstar (.add (.add (passes_readable function 0) (passes_readable statement 0))
      (.sign rfl))
  | function =>
    have hname : Passes (· = opened 0) name (Based 0) := passes_name
    exact .mul (.mul (.mul (.mul .word .type) hname)
      (.called (passes_arguments (passes_readable arg 0)))) passes_block
  | arg =>
    exact .mul (.mul .type passes_name) (.add (.mono .one (fun _ h => h) fun _ h => h.ended)
      (.mul (Q := (· = opened 0)) (.single fun q hq => by
        match q, hq with
        | named _ 0, _ | operand, _ => exact ⟨opened 0, rfl, rfl⟩)
      (.single fun _ _ => ⟨operand, rfl, trivial⟩)))
  | block =>
    exact .mul (.mul (.sign rfl) (.kstar (.add (passes_readable statement 0) (.sign rfl))))
      (.sign rfl)
  | statement =>
    refine .add
      (.add (.add (.add (.add (.add (.add (.add (.add passes_block ?_) ?_) ?_) ?_) ?_) ?_) ?_) ?_)
      (.mul (passes_readable expression 0) (.sign rfl))
    · exact passes_readable conditional 0
    · exact passes_readable whileLoop 0
    · exact passes_readable doWhile 0
    · exact passes_readable forLoop 0
    · exact passes_readable returnStmt 0
    · exact passes_readable breakStmt 0
    · exact passes_readable continueStmt 0
    · exact .mono (passes_readable varDecls 0) (fun _ _ => trivial) fun _ h => h
  | varDecls => exact .mul (.mul .type (.commaList (passes_readable var 0))) (.sign rfl)
  | var =>
    refine .mul passes_name (.add (.add (.mono .one (fun _ h => h) fun _ h => h.ended) ?_) ?_)
    · exact .mul (.sign rfl) (passes_readable assignment 0)
    · exact .mono passes_index (fun _ h => h) fun _ h => h ▸ trivial
  | conditional =>
    have hbranches : Passes (· = opened 0)
        (word .elseKw * word .ifKw * Phrase.inParens (readable expression) * readable block)∗
        (· = opened 0) :=
      .kstar (.mul (.mul (.mul .word .word) (.inParens (passes_readable expression 1)))
        passes_block)
    exact .mul (.mul (.mul passes_condition passes_block) hbranches)
      (.add .one (.mul .word passes_block))
  | whileLoop => exact .mul passes_condition passes_block
  | doWhile =>
    exact .mul (.mul (.mul (.mul .word passes_block) .word)
      (.inParens (passes_readable expression 1))) (.sign rfl)
  | forLoop =>
    have hopen : Passes (· = opened 0) (sign .openParen) (· = opened 1) :=
      .single fun q hq => ⟨opened 1, by rw [hq]; rfl, rfl⟩
    have hclose : Passes (fun _ => True) (sign .closeParen) (fun _ => True) :=
      .single fun q _ => by cases q with
        | named left closed => cases left <;> exact ⟨_, rfl, trivial⟩
        | _ => exact ⟨_, rfl, trivial⟩
    have hfirst :
        Passes (· = opened 1) (readable varDecls + (1 + readable expression) * sign .semicolon)
        (· = opened 0) :=
      .add (.mono (passes_readable varDecls 0) (fun _ _ => trivial) fun _ h => h)
        (.mul (hoptional 1) (.sign rfl))
    have hparts := Passes.mul (.mul (.mul hfirst (hoptional 0)) (.sign (s := .semicolon) rfl))
      (hoptional 0)
    exact .mul
      (.mul .word (.mul (.mul hopen hparts) (.mono hclose (fun _ _ => trivial) fun _ h => h)))
      passes_block
  | returnStmt => exact .mul (.mul .word (hoptional 0)) (.sign rfl)
  | breakStmt | continueStmt => exact .mul .word (.sign rfl)
  | expression =>
    refine .mul (passes_readable assignment k) (.add .one (.mul (.sign rfl) ?_))
    exact .mono (passes_readable expression 0) (fun _ h => h) fun _ h => h.mono (Nat.zero_le k)
  | assignment =>
    refine .add (passes_readable equality k) (.mul (.mul (Q := Ended k) ?_ (.sign rfl)) ?_)
    · exact fun ks hks => passes_readable equality k ks hks.1
    · exact .mono (passes_readable assignment 0) (fun _ h => h) fun _ h => h.mono (Nat.zero_le k)
  | target =>
    refine .add (.mul passes_name
      (.add (.mono .one (fun _ h => h) fun _ h => h.ended) (.mul passes_suffixes ?_))) ?_
    · exact .mono passes_index (fun _ h => h) fun _ h => h ▸ trivial
    · exact .inParens (passes_readable target (k + 1))
  | equality => exact passes_chain rfl (passes_readable relational) k
  | relational => exact passes_chain rfl (passes_readable additive) k
  | additive => exact passes_chain rfl (passes_readable term) k
  | term => exact passes_chain rfl (passes_readable unary) k
  | unary =>
    refine .add (.mul (.anyOf rfl) ?_) (passes_readable suffixed k)
    exact .mono (passes_readable unary 0) (fun _ h => h) fun _ h => h.mono (Nat.zero_le k)
  | suffixed =>
    exact .add (.mul passes_name (.mono passes_suffixes (fun _ h => h) fun _ h => h.ended))
      (passes_readable primary k)
  | primary =>
    refine .add (.add (.add ?_ ?_) ?_) (.inParens (passes_readable expression (k + 1)))
    · exact .single fun q hq => ⟨operand, rfl, trivial⟩
    · exact .single fun q hq => ⟨operand, rfl, trivial⟩
    · exact .mono passes_name (fun _ h => h) fun _ h => h.ended

theorem generated_le_readable (p : Phrase) : generated p ≤ readable p :=
  generated_le (fun p ks hks k => passes_rule k p ks hks) p

end Reading

/-- **What the rules generate calls no name in parentheses.** -/
theorem Phrase.not_callsWrapped_of_mem {ks : List Token.Kind} (h : ks ∈ generated program) :
    ¬CallsWrapped ks := by
  obtain ⟨q, hrun, -⟩ := Reading.generated_le_readable program h 0 (.opened 0) rfl
  exact Reading.not_callsWrapped_of_run hrun

end Stacklet
