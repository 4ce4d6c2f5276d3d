import Stacklet.Tree.Parse
/-!
# Parsers move forward

* `Parser.Forward`: parsers that are composed of looks at the state, of taking the next token unless
  it is the end of input, and of errors at the next token. Nothing else can happen in a run of such
  a parser.
* `Parser.program_forward`: the parser of programs is one of them, and so is every production.
* `Parser.Forward.keeps`: what one such action keeps, a run keeps.
* `Parser.Takes`: parsers that take a token if there is one, as those of statements and functions
  do.
* `Parser.rest_program`: all tokens up to the end of input are taken.
-/

namespace Stacklet

variable {k : Token.Kind}

namespace Parser

variable {α β : Type} {s s' : State}

/-! ## Actions -/

/-- Takes the next token, but not the end of input. -/
def takeNext : Parser Token := fun s =>
  (s.peek, if s.peek.kind = .endOfInput then s else { s with rest := s.rest.tail })

/-- Parsers that are composed of looks, of taking tokens before the end of input, and of errors at
the next token. -/
class inductive Forward : {α : Type} → Parser α → Prop where
  | look {α : Type} (g : State → α) : Forward (fun s => (g s, s))
  | take : Forward takeNext
  | report (e : SyntaxError) : Forward (Parser.report e)
  | bind {α β : Type} (x : Parser α) (f : α → Parser β) : Forward x → (∀ a, Forward (f a)) →
      Forward (x >>= f)

attribute [instance] Forward.take Forward.report

namespace Forward

instance (x : Parser α) (f : α → Parser β) [hx : Forward x] [hf : ∀ a, Forward (f a)] :
    Forward (x >>= f) :=
  bind x f hx hf

instance (a : α) : Forward (pure a : Parser α) := look fun _ => a

instance : Forward peek := look State.peek

instance : Forward here := inferInstanceAs (Forward (peek >>= fun t => pure t.loc))

instance : Forward remaining := look fun s => s.rest.length

instance (x : Parser α) [hx : Forward x] : Forward (discard x) :=
  bind x (fun _ => pure ()) hx inferInstance

instance (p : Prop) [Decidable p] (x y : Parser α) [Forward x]
    [Forward y] : Forward (if p then x else y) := by
  split <;> infer_instance

/-- What the actions keep, a run keeps. -/
theorem keeps {R : State → State → Prop} (hrefl : ∀ s, R s s)
    (htrans : ∀ {s s' s''}, R s s' → R s' s'' → R s s'')
    (htake : ∀ s t ts, s.rest = t :: ts → t.kind ≠ .endOfInput → R s { s with rest := ts })
    (hreport : ∀ s e, R s (Parser.report e s).2) {x : Parser α} (h : Forward x) (s : State) :
    R s (x s).2 := by
  induction h generalizing s with
  | look g => exact hrefl s
  | take =>
    show R s (if s.peek.kind = .endOfInput then s else { s with rest := s.rest.tail })
    split
    · exact hrefl s
    · next hk =>
      match hr : s.rest with
      | [] =>
        rw [List.tail_nil, ← hr]
        exact hrefl s
      | t :: ts =>
        refine htake s t ts hr ?_
        rwa [State.peek, hr] at hk
  | report e => exact hreport s e
  | bind x f _ _ ihx ihf => exact htrans (ihx s) (ihf (x s).1 (x s).2)

end Forward

/-- A parser that moves forward where the next token is `t`. -/
def ForwardAt (t : Token) (x : Parser α) : Prop :=
  ∃ y : Parser α, Forward y ∧ ∀ s : State, s.peek = t → x s = y s

namespace ForwardAt

variable {t : Token}

theorem of_forward {x : Parser α} [hx : Forward x] : ForwardAt t x := ⟨x, hx, fun _ _ => rfl⟩

theorem advance (ht : t.kind ≠ .endOfInput) {f : Token → Parser α} [hf : ∀ a, Forward (f a)] :
    ForwardAt t (Parser.advance >>= f) := by
  refine ⟨takeNext >>= f, inferInstance, fun s hs => ?_⟩
  have hnext : takeNext s = (s.peek, { s with rest := s.rest.tail }) := by
    rw [takeNext, if_neg (hs ▸ ht)]
  show f s.peek { s with rest := s.rest.tail } = f (takeNext s).1 (takeNext s).2
  rw [hnext]

theorem report {x : Parser α} (h : ForwardAt t x) (e : SyntaxError) :
    ForwardAt t (Parser.report e >>= fun _ => x) := by
  obtain ⟨y, hy, heq⟩ := h
  exact ⟨Parser.report e >>= fun _ => y, inferInstance, fun s hs => heq _ hs⟩

theorem ite {p : Prop} [Decidable p] {x y : Parser α} (hx : p → ForwardAt t x)
    (hy : ¬p → ForwardAt t y) :
    ForwardAt t (if p then x else y) := by
  split
  · next h => exact hx h
  · next h => exact hy h

end ForwardAt

theorem Forward.peekThen {f : Token → Parser α} (h : ∀ t, ForwardAt t (f t)) :
    Forward (peek >>= f) := by
  have hsame : peek >>= f = peek >>= fun t => (h t).choose :=
    funext fun s => (h s.peek).choose_spec.2 s rfl
  have hforward (t : Token) : Forward (h t).choose := (h t).choose_spec.1
  rw [hsame]
  infer_instance

theorem accept_forward (hk : k ≠ .endOfInput) : Forward (accept k) :=
  .peekThen fun _ => .ite (fun h => .advance (h ▸ hk)) fun _ => .of_forward

instance (c : Symbol) : Forward (accept (.symbol c)) := accept_forward nofun

instance (k : Keyword) : Forward (accept (.keyword k)) := accept_forward nofun

theorem expect_forward (hk : k ≠ .endOfInput) (w : Wanted) : Forward (expect k w) := by
  refine .peekThen fun t => .ite (fun h => ?_) fun _ => .ite (fun _ => ?_) fun hend =>
    .report (.advance hend) _
  · exact ⟨takeNext, inferInstance, fun s hs => by
      rw [takeNext, if_neg (by rw [hs, h]; exact hk)]
      rfl⟩
  · have : Forward (get : Parser State) := .look id
    exact .of_forward

instance (w : Wanted) : Forward (expect .name w) := expect_forward Token.Kind.noConfusion w

instance (c : Symbol) (w : Wanted) : Forward (expectSign c w) :=
  have := expect_forward (k := .symbol c) nofun w
  inferInstanceAs (Forward (discard _))

instance (k : Keyword) (w : Wanted) : Forward (expectWord k w) :=
  have := expect_forward (k := .keyword k) nofun w
  inferInstanceAs (Forward (discard _))

theorem ne_end_of_isType (h : k.isType) : k ≠ .endOfInput := by
  rintro rfl
  cases h

instance (w : Wanted) : Forward (typeName w) :=
  .peekThen fun _ => .ite (fun h => .advance (ne_end_of_isType h)) fun _ => .of_forward

instance (a : α) : Forward (usedUp a) := by
  unfold usedUp
  infer_instance

instance (item : Parser Tree) [Forward item] (n : Nat) : Forward (commaTail item n) := by
  induction n with
  | zero => unfold commaTail; infer_instance
  | succ n ih => unfold commaTail; infer_instance

instance (n : Nat) (item : Parser Tree) [Forward item] : Forward (commaSeparated n item) := by
  unfold commaSeparated
  infer_instance

/-! ## Productions -/

end Parser

theorem Productions.bound_upTo (n : Nat) : (upTo n).bound = n := by
  induction n with
  | zero => rfl
  | succ n ih => exact congrArg Nat.succ ih

class Productions.IsForward (r : Productions) : Prop where
  expression : Parser.Forward r.expression
  assignment : Parser.Forward r.assignment
  unary : Parser.Forward r.unary
  statement : Parser.Forward r.statement

attribute [instance] Productions.IsForward.expression Productions.IsForward.assignment
  Productions.IsForward.unary
  Productions.IsForward.statement

namespace Parser

variable {α β : Type} {s s' : State}

section Productions

variable (r : Productions) [r.IsForward]

instance : Forward (primary r) := by
  refine .peekThen fun t => ?_
  split
  · next hk => exact .advance (hk ▸ nofun)
  · next hk => exact .advance (hk ▸ nofun)
  · next hk => exact .advance (hk ▸ nofun)
  · next hk => exact .advance (hk ▸ nofun)
  · exact .of_forward
  · next hend => exact .report (.advance hend) _

instance : Forward (arguments r) := by
  unfold arguments
  infer_instance

instance (n : Nat) (base : Tree) : Forward (suffixes r n base) := by
  induction n generalizing base with
  | zero => unfold suffixes; infer_instance
  | succ n ih => unfold suffixes; infer_instance

instance : Forward (suffixed r) := by
  unfold suffixed
  infer_instance

instance : Forward (unary r) := by
  refine .peekThen fun t => ?_
  split
  · next hk => exact .advance (hk ▸ nofun)
  · next hk => exact .advance (hk ▸ nofun)
  · next hk => exact .advance (hk ▸ nofun)
  · exact .of_forward

theorem ne_end_of_isOneOf {ops : List Symbol} (h : isOneOf ops k) : k ≠ .endOfInput := by
  rintro rfl
  cases h

instance (ops : List Symbol) (operand : Parser Tree) [Forward operand] (n : Nat) (left : Tree) :
    Forward (operatorTail ops operand n left) := by
  induction n generalizing left with
  | zero => unfold operatorTail; infer_instance
  | succ n ih =>
    exact .peekThen fun _ => .ite (fun h => .advance (ne_end_of_isOneOf h)) fun _ => .of_forward

omit [r.IsForward] in
instance (ops : List Symbol) (operand : Parser Tree) [Forward operand] :
    Forward (operatorLevel r ops operand) := by
  unfold operatorLevel
  infer_instance

instance : Forward (term r) := by unfold term; infer_instance

instance : Forward (additive r) := by unfold additive; infer_instance

instance : Forward (relational r) := by unfold relational; infer_instance

instance : Forward (equality r) := by unfold equality; infer_instance

instance : Forward (assignment r) := by unfold assignment; infer_instance

instance : Forward (expression r) := by unfold expression; infer_instance

instance (n : Nat) : Forward (statements r n) := by
  induction n with
  | zero => unfold statements; infer_instance
  | succ n ih => unfold statements; infer_instance

instance : Forward (block r) := by unfold block; infer_instance

instance : Forward (declarator r) := by
  unfold declarator
  refine .bind _ _ inferInstance fun name => .bind _ _ inferInstance fun _ => ?_
  dsimp only
  split
  · refine .bind _ _ inferInstance fun e => .bind _ _ inferInstance fun _ => ?_
    infer_instance
  · refine .bind _ _ inferInstance fun _ => ?_
    infer_instance

instance : Forward (declaration r) := by unfold declaration; infer_instance

instance (n : Nat) : Forward (elseBranches r n) := by
  induction n with
  | zero => unfold elseBranches; infer_instance
  | succ n ih =>
    unfold elseBranches
    refine .bind _ _ inferInstance fun loc => .bind _ _ inferInstance fun _ => ?_
    dsimp only
    infer_instance

instance : Forward (conditional r) := by
  unfold conditional
  refine .bind _ _ inferInstance fun _ => .bind _ _ inferInstance fun _ =>
    .bind _ _ inferInstance fun _ => ?_
  infer_instance

instance : Forward (whileLoop r) := by unfold whileLoop; infer_instance

instance : Forward (doWhile r) := by
  unfold doWhile
  refine .bind _ _ inferInstance fun _ => .bind _ _ inferInstance fun _ =>
    .bind _ _ inferInstance fun _ => ?_
  infer_instance

instance : Forward (forFirst r) := by unfold forFirst; infer_instance

instance (c : Symbol) : Forward (optionalBefore r c) := by unfold optionalBefore; infer_instance

instance : Forward (forLoop r) := by
  unfold forLoop
  refine .bind _ _ inferInstance fun _ => .bind _ _ inferInstance fun _ =>
    .bind _ _ inferInstance fun _ => ?_
  infer_instance

instance : Forward (returnStmt r) := by unfold returnStmt; infer_instance

instance : Forward (exprStmt r) := by unfold exprStmt; infer_instance

instance : Forward (statement r) := by
  refine .peekThen fun t => ?_
  split
  · exact .of_forward
  · exact .of_forward
  · exact .of_forward
  · exact .of_forward
  · exact .of_forward
  · exact .of_forward
  · next hk => exact .advance (hk ▸ nofun)
  · next hk => exact .advance (hk ▸ nofun)
  · exact .of_forward

instance : Forward parameter := by unfold parameter; infer_instance

omit [r.IsForward] in
instance : Forward (parameters r) := by unfold parameters; infer_instance

instance : Forward (function r) := by unfold function; infer_instance

instance (n : Nat) : Forward (items r n) := by
  induction n with
  | zero => unfold items; infer_instance
  | succ n ih => unfold items; infer_instance

end Productions

instance (n : Nat) : (Productions.upTo n).IsForward := by
  induction n with
  | zero =>
    have hstop (f : Loc → Tree) : Forward (do usedUp (f (← here))) := inferInstance
    exact ⟨hstop _, hstop _, hstop _, hstop _⟩
  | succ n ih =>
    exact ⟨inferInstanceAs (Forward (expression _)), inferInstanceAs (Forward (assignment _)),
      inferInstanceAs (Forward (unary _)), inferInstanceAs (Forward (statement _))⟩

/-- **The parser of programs moves forward.** -/
theorem program_forward : Forward program := by
  unfold program
  infer_instance

/-! ## Tokens left -/

/-- Whether a token stands before the end of input. -/
def isBefore (t : Token) : Bool := t.kind ≠ .endOfInput

/-- The number of tokens that are left before the end of input. -/
def State.left (s : State) : Nat := (s.rest.takeWhile isBefore).length

/-- A state whose stand-in is the end of input. -/
def State.Ends (s : State) : Prop := s.fallback.kind = .endOfInput

/-- Later states: some tokens before the end of input were taken. -/
structure State.Later (s s' : State) : Prop where
  fallback_eq : s'.fallback = s.fallback
  taken : ∃ ts, s.rest = ts ++ s'.rest ∧ ∀ t ∈ ts, isBefore t

theorem State.Later.left_le (h : s.Later s') : s'.left ≤ s.left := by
  obtain ⟨ts, hts, hbefore⟩ := h.taken
  rw [State.left, State.left, hts, List.takeWhile_append_of_pos hbefore, List.length_append]
  omega

theorem State.Later.ends (h : s.Later s') (hs : s.Ends) : s'.Ends := by
  rw [State.Ends, h.fallback_eq]
  exact hs

theorem Forward.later (x : Parser α) [h : Forward x] (s : State) : s.Later (x s).2 := by
  refine h.keeps (R := State.Later) (fun s => ⟨rfl, [], rfl, fun _ h => absurd h List.not_mem_nil⟩)
    ?_ ?_ ?_ s
  · rintro s s' s'' ⟨hf, ts, hts, hbefore⟩ ⟨hf', ts', hts', hbefore'⟩
    refine ⟨hf'.trans hf, ts ++ ts', ?_, fun t ht => ?_⟩
    · rw [hts, hts', List.append_assoc]
    · exact (List.mem_append.mp ht).elim (hbefore t) (hbefore' t)
  · intro s t ts hr hk
    exact ⟨rfl, [t], hr, by simpa [isBefore] using hk⟩
  · exact fun s e => ⟨rfl, [], rfl, fun _ h => absurd h List.not_mem_nil⟩

theorem State.left_eq_zero_iff (hs : s.Ends) : s.left = 0 ↔ s.peek.kind = .endOfInput := by
  unfold State.left State.peek
  match s.rest with
  | [] => exact iff_of_true rfl hs
  | t :: ts => by_cases hk : t.kind = .endOfInput <;> simp [isBefore, hk]

/-! ## Parsers that take a token -/

/-- A parser that takes a token where the next one is `t`. -/
def TakesAt (t : Token) (x : Parser α) : Prop :=
  ∀ s : State, s.Ends → s.peek = t → (x s).2.left < s.left

/-- A parser that takes a token, unless the end of input stands there. -/
class Takes (x : Parser α) : Prop where
  takesAt : ∀ t : Token, t.kind ≠ .endOfInput → TakesAt t x

namespace TakesAt

variable {t : Token}

theorem bind {x : Parser α} {f : α → Parser β} (hx : TakesAt t x) (hf : ∀ a, Forward (f a)) :
    TakesAt t (x >>= f) :=
  fun s hs ht => Nat.lt_of_le_of_lt (Forward.later (f (x s).1) (x s).2).left_le (hx s hs ht)

theorem hereThen {f : Loc → Parser α} (h : ∀ loc, TakesAt t (f loc)) : TakesAt t (here >>= f) :=
  fun s hs ht => h s.peek.loc s hs ht

theorem peekThen {f : Token → Parser α} (h : TakesAt t (f t)) : TakesAt t (peek >>= f) := by
  rintro s hs rfl
  exact h s hs rfl

theorem reportThen {x : Parser α} (h : TakesAt t x) (e : SyntaxError) :
    TakesAt t (report e >>= fun _ => x) :=
  fun s hs ht => h (report e s).2 hs ht

theorem advance (ht : t.kind ≠ .endOfInput) : TakesAt t advance := by
  rintro s hs rfl
  show State.left { s with rest := s.rest.tail } < s.left
  unfold State.left
  match hr : s.rest with
  | [] =>
    rw [State.peek, hr] at ht
    exact absurd hs ht
  | t :: ts =>
    rw [State.peek, hr] at ht
    rw [List.takeWhile_cons_of_pos (by simpa [isBefore] using ht)]
    exact Nat.lt_succ_self _

theorem typeName (ht : t.kind.isType) (w : Wanted) : TakesAt t (typeName w) := by
  refine .peekThen ?_
  rw [if_pos ht]
  exact (advance (ne_end_of_isType ht)).bind inferInstance

end TakesAt

namespace Takes

instance (x : Parser α) (f : α → Parser β) [hx : Takes x] [hf : ∀ a, Forward (f a)] :
    Takes (x >>= f) :=
  ⟨fun t ht => (hx.takesAt t ht).bind hf⟩

instance (f : Loc → Parser α) [hf : ∀ loc, Takes (f loc)] : Takes (here >>= f) :=
  ⟨fun t ht => .hereThen fun loc => (hf loc).takesAt t ht⟩

instance : Takes advance := ⟨fun _ ht => .advance ht⟩

theorem peekThen {f : Token → Parser α} (h : ∀ t : Token, t.kind ≠ .endOfInput → TakesAt t (f t)) :
    Takes (peek >>= f) :=
  ⟨fun t ht => .peekThen (h t ht)⟩

end Takes

instance (k : Token.Kind) (w : Wanted) : Takes (expect k w) := by
  refine .peekThen fun t ht => ?_
  rw [if_neg ht]
  split
  · exact .advance ht
  · exact .reportThen ((TakesAt.advance ht).bind inferInstance) _

instance (c : Symbol) (w : Wanted) : Takes (expectSign c w) :=
  ⟨fun t ht s => Takes.takesAt (x := expect (.symbol c) w) t ht s⟩

instance (k : Keyword) (w : Wanted) : Takes (expectWord k w) :=
  ⟨fun t ht s => Takes.takesAt (x := expect (.keyword k) w) t ht s⟩

section Productions

variable (r : Productions) [r.IsForward]

instance : Takes (primary r) := by
  refine .peekThen fun t ht => ?_
  have htake {f : Token → Parser Tree} [∀ a, Forward (f a)] : TakesAt t (advance >>= f) :=
    (TakesAt.advance ht).bind inferInstance
  split
  · exact htake
  · exact htake
  · exact htake
  · exact htake
  · contradiction
  · exact .reportThen htake _

instance : Takes (suffixed r) := by unfold suffixed; infer_instance

instance : Takes (unary r) := by
  refine .peekThen fun t ht => ?_
  split
  · exact (TakesAt.advance ht).bind inferInstance
  · exact (TakesAt.advance ht).bind inferInstance
  · exact (TakesAt.advance ht).bind inferInstance
  · exact Takes.takesAt t ht

omit [r.IsForward] in
instance (ops : List Symbol) (operand : Parser Tree) [Forward operand] [Takes operand] :
    Takes (operatorLevel r ops operand) := by
  unfold operatorLevel
  infer_instance

instance : Takes (term r) := by unfold term; infer_instance

instance : Takes (additive r) := by unfold additive; infer_instance

instance : Takes (relational r) := by unfold relational; infer_instance

instance : Takes (equality r) := by unfold equality; infer_instance

instance : Takes (assignment r) := by unfold assignment; infer_instance

instance : Takes (expression r) := by unfold expression; infer_instance

/-- **A statement takes a token.** -/
instance : Takes (statement r) := by
  refine .peekThen fun t ht => ?_
  have hfirst {k : Keyword} {w : Wanted} := Takes.takesAt (x := expectWord k w) t ht
  split
  · unfold block
    exact Takes.takesAt t ht
  · unfold conditional
    exact .hereThen fun _ => hfirst.bind fun _ => .bind _ _ inferInstance fun _ =>
      .bind _ _ inferInstance inferInstance
  · unfold whileLoop
    exact Takes.takesAt t ht
  · unfold doWhile
    exact .hereThen fun _ => hfirst.bind fun _ => .bind _ _ inferInstance fun _ =>
      .bind _ _ inferInstance inferInstance
  · unfold forLoop
    exact .hereThen fun _ => hfirst.bind fun _ => .bind _ _ inferInstance fun _ =>
      .bind _ _ inferInstance inferInstance
  · unfold returnStmt
    exact Takes.takesAt t ht
  · unfold jump
    exact Takes.takesAt t ht
  · unfold jump
    exact Takes.takesAt t ht
  · split
    · next htype =>
      unfold declaration
      exact .hereThen fun _ => (TakesAt.typeName htype _).bind inferInstance
    · unfold exprStmt
      exact Takes.takesAt t ht

/-- **A function takes a token.** -/
instance : Takes (function r) := by
  unfold function
  exact ⟨fun t ht => .hereThen fun _ => (Takes.takesAt t ht).bind fun _ => .bind _ _ inferInstance
    inferInstance⟩

/-! ## The end of input -/

omit [r.IsForward] in
theorem bind_of_eq {x : Parser α} {a : α} (h : x s = (a, s')) (f : α → Parser β) :
    (x >>= f) s = f a s' := by
  show f (x s).1 (x s).2 = f a s'
  rw [h]

omit [r.IsForward] in
theorem accept_eq_true (h : s.peek.kind = k) :
    accept k s = (true, { s with rest := s.rest.tail }) := by
  show (if s.peek.kind = k then _ else _ : Parser Bool) s = _
  rw [if_pos h]
  rfl

omit [r.IsForward] in
theorem accept_eq_false (h : s.peek.kind ≠ k) : accept k s = (false, s) := by
  show (if s.peek.kind = k then _ else _ : Parser Bool) s = _
  rw [if_neg h]
  rfl

omit [r.IsForward] in
theorem items_eq_nil (n : Nat) (h : s.peek.kind = .endOfInput) : items r (n + 1) s = ([], s) := by
  show (if s.peek.kind = .endOfInput then _ else _ : Parser (List Tree)) s = _
  rw [if_pos h]
  rfl

omit [r.IsForward] in
theorem items_succ (n : Nat) (h : s.peek.kind ≠ .endOfInput) : items r (n + 1) s =
    if s.peek.kind = .symbol .semicolon then items r n { s with rest := s.rest.tail }
    else if s.peek.kind = .keyword .fnKw then (do return (← function r) :: (← items r n)) s
    else (do return (← statement r) :: (← items r n)) s := by
  show (if s.peek.kind = .endOfInput then _ else _ : Parser (List Tree)) s = _
  rw [if_neg h]
  by_cases hsemi : s.peek.kind = .symbol .semicolon
  · rw [bind_of_eq (accept_eq_true hsemi), if_pos hsemi]
    rfl
  · rw [bind_of_eq (accept_eq_false hsemi), if_neg hsemi, if_neg Bool.false_ne_true]
    by_cases hfn : s.peek.kind = .keyword .fnKw
    · rw [if_pos hfn]
      dsimp only
      rw [if_pos hfn]
    · rw [if_neg hfn]
      dsimp only
      rw [if_neg hfn]

/-- Items up to the end of input, if there is a round for each token and one to stop. -/
theorem items_reach_end (n : Nat) (hs : s.Ends) (hn : s.left ≤ n) :
    (items r (n + 1) s).2.peek.kind = .endOfInput := by
  induction n generalizing s with
  | zero =>
    have hend := (State.left_eq_zero_iff hs).mp (Nat.le_zero.mp hn)
    rwa [items_eq_nil r 0 hend]
  | succ n ih =>
    by_cases hend : s.peek.kind = .endOfInput
    · rwa [items_eq_nil r _ hend]
    -- each round takes a token
    have hround {x : Parser Tree} [Forward x] [hx : Takes x] :
        ((do return (← x) :: (← items r (n + 1))) s).2.peek.kind = .endOfInput :=
      ih ((Forward.later x s).ends hs)
        (Nat.le_of_lt_succ (Nat.lt_of_lt_of_le (hx.takesAt _ hend s hs rfl) hn))
    rw [items_succ r (n + 1) hend]
    split
    · refine ih hs ?_
      exact Nat.le_of_lt_succ (Nat.lt_of_lt_of_le (TakesAt.advance hend s hs rfl) hn)
    · split
      · exact hround
      · exact hround

end Productions

theorem State.Later.rest_eq (h : s.Later s') (hs : s'.peek.kind = .endOfInput) :
    s'.rest = s.rest.dropWhile isBefore := by
  obtain ⟨ts, hts, hbefore⟩ := h.taken
  rw [hts, List.dropWhile_append_of_pos hbefore]
  match hr : s'.rest with
  | [] => rfl
  | t :: ts =>
    rw [State.peek, hr] at hs
    exact (List.dropWhile_cons_of_neg (by simpa [isBefore] using hs)).symm

/-- **All tokens up to the end of input are taken**, and no more. -/
theorem rest_program (hs : s.Ends) : (program s).2.rest = s.rest.dropWhile isBefore := by
  have := program_forward
  refine (Forward.later program s).rest_eq ?_
  refine items_reach_end (Productions.upTo s.rest.length) s.rest.length hs ?_
  exact (List.takeWhile_sublist isBefore).length_le

end Parser

end Stacklet
