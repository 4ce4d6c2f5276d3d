import Stacklet.Proofs.Parsing.Forward
/-!
# Parsers side by side

* `Tree.Like`: trees that differ in their places only, and these are related.
* `Parser.State.Level`: states with like tokens up to the end of input and like errors. What follows
  the end of input may differ, and so may the places.
* `Parser.Lockstep`: parsers that go on from level states to level states, with related results.
* `Productions.Agree`: productions that do so where fewer than some number of tokens are left.
* `Productions.agree_upTo`: productions agree where both have levels of recursion for all tokens
  that are left.
* `Parser.program_lockstep`: the parser of programs does not depend on places, nor on what follows
  the end of input, nor on spare levels of recursion.
-/

namespace Stacklet

/-! ## Like trees -/

mutual

/-- Trees that are equal up to places, which are related by `M`. -/
inductive Tree.Like (M : Loc → Loc → Prop) : Tree → Tree → Prop
  | mk (kind : Tree.Kind) (text : String) (isArray : Bool) (loc loc' : Loc) (ts ts' : List Tree) :
      M loc loc' →
    Tree.AllLike M ts ts' → Tree.Like M ⟨kind, text, isArray, loc, ts⟩
      ⟨kind, text, isArray, loc', ts'⟩

inductive Tree.AllLike (M : Loc → Loc → Prop) : List Tree → List Tree → Prop
  | nil : Tree.AllLike M [] []
  | cons {t t' : Tree} {ts ts' : List Tree} : Tree.Like M t t' → Tree.AllLike M ts ts' →
      Tree.AllLike M (t :: ts) (t' :: ts')

end

namespace Tree

variable {M : Loc → Loc → Prop}

mutual

theorem Like.same {t t' : Tree} : Like M t t' → t.same t' = true
  | .mk _ _ _ _ _ _ _ _ hts => by
    rw [Tree.same, hts.sameAll]
    simp

theorem AllLike.sameAll {ts ts' : List Tree} : AllLike M ts ts' → Tree.sameAll ts ts' = true
  | .nil => by rw [Tree.sameAll]
  | .cons ht hts => by rw [Tree.sameAll, ht.same, hts.sameAll, Bool.and_self]

end

mutual

theorem Like.eq {t t' : Tree} : Like Eq t t' → t = t'
  | .mk _ _ _ _ _ _ _ hloc hts => by rw [hloc, hts.eq]

theorem AllLike.eq {ts ts' : List Tree} : AllLike Eq ts ts' → ts = ts'
  | .nil => rfl
  | .cons ht hts => by rw [ht.eq, hts.eq]

end

theorem Like.kind_eq {t t' : Tree} (h : Like M t t') : t'.kind = t.kind := by
  cases h
  rfl

theorem Like.loc_like {t t' : Tree} (h : Like M t t') : M t.loc t'.loc := by
  cases h
  assumption

/-- Induction along two lists of like trees. -/
@[induction_eliminator] theorem AllLike.ind {motive : ∀ ts ts' : List Tree, AllLike M ts ts' → Prop}
    (nil : motive [] [] .nil) (cons : ∀ {t t' ts ts'} (ht : Like M t t') (hts : AllLike M ts ts'),
      motive ts ts' hts → motive _ _ (.cons ht hts)) {ts ts' : List Tree} (h : AllLike M ts ts') :
    motive ts ts' h := by
  induction ts generalizing ts' with
  | nil =>
    cases h
    exact nil
  | cons t ts ih =>
    cases h with
    | cons ht hts => exact cons ht hts (ih hts)

theorem AllLike.append {ts ts' us us' : List Tree} (h : AllLike M ts ts') (h' : AllLike M us us') :
    AllLike M (ts ++ us) (ts' ++ us') := by
  induction h with
  | nil => exact h'
  | cons ht _ ih => exact .cons ht ih

section

variable {kind : Kind} {text : String} {isArray : Bool} {loc loc' : Loc} (h : M loc loc')

include h

theorem Like.leaf : Like M { kind, text, isArray, loc } { kind, text, isArray, loc := loc' } :=
  .mk kind text isArray loc loc' [] [] h .nil

theorem Like.one {a a' : Tree}
    (ha : Like M a a') : Like M { kind, text, isArray, loc, children := [a] }
      { kind, text, isArray, loc := loc', children := [a'] } :=
  .mk kind text isArray loc loc' _ _ h (.cons ha .nil)

theorem Like.two {a a' b b' : Tree}
    (ha : Like M a a') (hb : Like M b b') :
    Like M { kind, text, isArray, loc, children := [a, b] }
      { kind, text, isArray, loc := loc', children := [a', b'] } :=
  .mk kind text isArray loc loc' _ _ h (.cons ha (.cons hb .nil))

end

end Tree

namespace Parser

variable {α α' β β' : Type} {E M : Loc → Loc → Prop} {n : Nat}

/-! ## Level states -/

/-- Tokens of one kind. Unless they are the end of input, their texts are equal too. -/
structure TokenLike (E M : Loc → Loc → Prop) (t t' : Token) : Prop where
  kind_eq : t'.kind = t.kind
  text_eq : t.kind ≠ .endOfInput → t'.text = t.text
  error_like : E t.loc t'.loc
  tree_like : M t.loc t'.loc

/-- Tokens that are alike up to the end of input, where `e` and `e'` stand in for it. -/
inductive Upcoming (E M : Loc → Loc → Prop) (e e' : Token) : List Token → List Token → Prop
  | stop (ts ts' : List Token) : (ts.headD e).kind = .endOfInput →
      TokenLike E M (ts.headD e) (ts'.headD e') →
    Upcoming E M e e' ts ts'
  | more (t t' : Token) (ts ts' : List Token) : t.kind ≠ .endOfInput → TokenLike E M t t' →
      Upcoming E M e e' ts ts' →
    Upcoming E M e e' (t :: ts) (t' :: ts')

/-- Errors with equal causes, at related places. None is a bound that is used up. -/
inductive ErrorsLike (E : Loc → Loc → Prop) :
    List (Located SyntaxError) → List (Located SyntaxError) → Prop
  | nil : ErrorsLike E [] []
  | cons (loc loc' : Loc) (cause : SyntaxError) (es es' : List (Located SyntaxError)) :
    cause ≠ .unfinished → E loc loc' → ErrorsLike E es es' →
    ErrorsLike E (⟨loc, cause⟩ :: es) (⟨loc', cause⟩ :: es')

theorem ErrorsLike.concat {es es' : List (Located SyntaxError)} (h : ErrorsLike E es es')
    {loc loc' : Loc} (hloc : E loc loc') {cause : SyntaxError} (hcause : cause ≠ .unfinished) :
    ErrorsLike E (es ++ [⟨loc, cause⟩]) (es' ++ [⟨loc', cause⟩]) := by
  induction h with
  | nil => exact .cons _ _ _ _ _ hcause hloc .nil
  | cons _ _ _ _ _ hc hfirst _ ih => exact .cons _ _ _ _ _ hc hfirst ih

theorem ErrorsLike.finished {es es' : List (Located SyntaxError)} (h : ErrorsLike E es es') :
    ∀ e ∈ es, e.cause ≠ .unfinished := by
  induction h with
  | nil => exact List.forall_mem_nil _
  | cons _ _ _ _ _ hc _ _ ih => exact List.forall_mem_cons.mpr ⟨hc, ih⟩

/-- States with like tokens ahead and like errors. -/
structure State.Level (E M : Loc → Loc → Prop) (s s' : State) : Prop where
  ends : s.Ends
  upcoming : Upcoming E M s.fallback s'.fallback s.rest s'.rest
  fallback_text : s'.fallback.text = s.fallback.text
  fallback_like : M s.fallback.loc s'.fallback.loc
  errors_like : ErrorsLike E s.errors.toList s'.errors.toList

variable {s s' : State}

theorem State.Level.peek (h : s.Level E M s') : TokenLike E M s.peek s'.peek := by
  unfold State.peek
  have hupcoming := h.upcoming
  generalize s.rest = rest, s'.rest = rest' at hupcoming
  cases hupcoming with
  | stop _ _ _ hlike => exact hlike
  | more _ _ _ _ _ hlike _ => exact hlike

theorem State.Level.tail (h : s.Level E M s') (hk : s.peek.kind ≠ .endOfInput) :
    State.Level E M { s with rest := s.rest.tail } { s' with rest := s'.rest.tail } := by
  refine ⟨h.ends, ?_, h.fallback_text, h.fallback_like, h.errors_like⟩
  unfold State.peek at hk
  have hupcoming := h.upcoming
  show Upcoming E M s.fallback s'.fallback s.rest.tail s'.rest.tail
  cases hrest : s.rest with
  | nil =>
    rw [hrest] at hk
    exact absurd h.ends hk
  | cons t ts =>
    rw [hrest] at hk hupcoming
    generalize s'.rest = rest' at hupcoming
    cases hupcoming with
    | stop _ _ hend _ => exact absurd hend hk
    | more _ _ _ _ _ _ htail => exact htail

theorem State.Level.report (h : s.Level E M s') (e : SyntaxError) (he : e ≠ .unfinished) :
    State.Level E M (Parser.report e s).2 (Parser.report e s').2 := by
  refine ⟨h.ends, h.upcoming, h.fallback_text, h.fallback_like, ?_⟩
  show ErrorsLike E (s.errors.push _).toList (s'.errors.push _).toList
  rw [Array.toList_push, Array.toList_push]
  exact h.errors_like.concat h.peek.error_like he

/-! ## Rules -/

/-- Parsers that lead from level states to level states, with results related by `R`, where fewer
than `n` tokens are left. -/
def Lockstep (E M : Loc → Loc → Prop) (n : Nat) (R : α → α' → Prop) (x : Parser α)
    (x' : Parser α') : Prop :=
  ∀ s s' : State, s.Level E M s' → s.left < n → R (x s).1 (x' s').1 ∧ (x s).2.Level E M (x' s').2

/-- The same where the next tokens are `t` and `t'`. -/
def LockstepAt (E M : Loc → Loc → Prop) (n : Nat) (t t' : Token) (R : α → α' → Prop) (x : Parser α)
    (x' : Parser α') :
    Prop :=
  ∀ s s' : State, s.Level E M s' → s.left < n → s.peek = t → s'.peek = t' →
    R (x s).1 (x' s').1 ∧ (x s).2.Level E M (x' s').2

namespace Lockstep

variable {R : α → α' → Prop} {Q : β → β' → Prop} {x : Parser α} {x' : Parser α'} {f : α → Parser β}
  {f' : α' → Parser β'}

theorem pure {a : α} {a' : α'} (h : R a a') : Lockstep E M n R (Pure.pure a) (Pure.pure a') :=
  fun _ _ hs _ => ⟨h, hs⟩

theorem bind [hforward : Forward x] (hx : Lockstep E M n R x x')
    (hf : ∀ a a', R a a' → Lockstep E M n Q (f a) (f' a')) :
    Lockstep E M n Q (x >>= f) (x' >>= f') := by
  intro s s' hs hn
  obtain ⟨hR, hs'⟩ := hx s s' hs hn
  exact hf _ _ hR _ _ hs' (Nat.lt_of_le_of_lt (Forward.later x s).left_le hn)

theorem andThen {x x' : Parser Unit} {y : Parser β} {y' : Parser β'} [Forward x]
    (hx : Lockstep E M n (fun _ _ => True) x x') (hy : Lockstep E M n Q y y') :
    Lockstep E M n Q (x >>= fun _ => y) (x' >>= fun _ => y') := hx.bind fun _ _ _ => hy

theorem mono {m : Nat} (hx : Lockstep E M n R x x') (h : m ≤ n) : Lockstep E M m R x x' :=
  fun s s' hs hm => hx s s' hs (Nat.lt_of_lt_of_le hm h)

theorem toAt {t t' : Token} (hx : Lockstep E M n R x x') : LockstepAt E M n t t' R x x' :=
  fun s s' hs hn _ _ => hx s s' hs hn

theorem peekThen {f : Token → Parser α} {f' : Token → Parser α'}
    (h : ∀ t t', TokenLike E M t t' → LockstepAt E M n t t' R (f t) (f' t')) :
    Lockstep E M n R (Parser.peek >>= f) (Parser.peek >>= f') :=
  fun s s' hs hn => h s.peek s'.peek hs.peek s s' hs hn rfl rfl

theorem hereThen {f : Loc → Parser α} {f' : Loc → Parser α'}
    (h : ∀ loc loc', M loc loc' → Lockstep E M n R (f loc) (f' loc')) :
    Lockstep E M n R (here >>= f) (here >>= f') :=
  fun s s' hs hn => h s.peek.loc s'.peek.loc hs.peek.tree_like s s' hs hn

theorem report (e : SyntaxError) (he : e ≠ .unfinished := by simp) :
    Lockstep E M n (fun _ _ => True) (Parser.report e) (Parser.report e) :=
  fun _ _ hs _ => ⟨trivial, hs.report e he⟩

end Lockstep

namespace LockstepAt

variable {R : α → α' → Prop} {t t' : Token}

theorem reportThen {x : Parser α} {x' : Parser α'} (h : LockstepAt E M n t t' R x x')
    (e : SyntaxError) (he : e ≠ .unfinished := by simp) :
    LockstepAt E M n t t' R (Parser.report e >>= fun _ => x) (Parser.report e >>= fun _ => x') :=
  fun _ _ hs hn ht ht' => h _ _ (hs.report e he) hn ht ht'

theorem advanceThen (hk : t.kind ≠ .endOfInput) {f : Token → Parser α} {f' : Token → Parser α'}
    (h : Lockstep E M n R (f t) (f' t')) :
    LockstepAt E M (n + 1) t t' R (advance >>= f) (advance >>= f') := by
  rintro s s' hs hn rfl rfl
  refine h _ _ (hs.tail hk) ?_
  exact Nat.lt_of_lt_of_le (TakesAt.advance hk s hs.ends rfl) (Nat.le_of_lt_succ hn)

theorem ite {p : Prop} [Decidable p] {x y : Parser α} {x' y' : Parser α'}
    (hx : p → LockstepAt E M n t t' R x x') (hy : ¬p → LockstepAt E M n t t' R y y') :
    LockstepAt E M n t t' R (if p then x else y) (if p then x' else y') := by
  split
  · next h => exact hx h
  · next h => exact hy h

theorem pure {a : α} {a' : α'} (h : R a a') :
    LockstepAt E M n t t' R (Pure.pure a) (Pure.pure a') :=
  (Lockstep.pure h).toAt

theorem takeThen {Q : β → β' → Prop} {x : Parser α} {x' : Parser α'} {f : α → Parser β}
    {f' : α' → Parser β'} [htakes : Takes x] (hk : t.kind ≠ .endOfInput)
    (hx : LockstepAt E M (n + 1) t t' R x x')
    (hf : ∀ a a', R a a' → Lockstep E M n Q (f a) (f' a')) :
    LockstepAt E M (n + 1) t t' Q (x >>= f) (x' >>= f') := by
  intro s s' hs hn ht ht'
  obtain ⟨hR, hs'⟩ := hx s s' hs hn ht ht'
  exact hf _ _ hR _ _ hs' (Nat.lt_of_lt_of_le (htakes.takesAt t hk s hs.ends ht)
    (Nat.le_of_lt_succ hn))

end LockstepAt

/-! ## Single tokens -/

section Tokens

variable {R : α → α' → Prop}

theorem accept_lockstep {k : Token.Kind} (hk : k ≠ .endOfInput) :
    Lockstep E M n Eq (accept k) (accept k) := by
  intro s s' hs _
  by_cases h : s.peek.kind = k
  · rw [accept_eq_true h, accept_eq_true (hs.peek.kind_eq.trans h)]
    exact ⟨rfl, hs.tail (h ▸ hk)⟩
  · rw [accept_eq_false h, accept_eq_false (fun h' => h (hs.peek.kind_eq.symm.trans h'))]
    exact ⟨rfl, hs⟩

theorem LockstepAt.acceptIf {t t' : Token} {k : Token.Kind} (hk : k ≠ .endOfInput) {x y : Parser α}
    {x' y' : Parser α'} (hx : Lockstep E M n R x x') (hy : LockstepAt E M (n + 1) t t' R y y') :
    LockstepAt E M (n + 1) t t' R (accept k >>= fun b => if b = true then x else y)
      (accept k >>= fun b => if b = true then x' else y') := by
  rintro s s' hs hn rfl rfl
  by_cases h : s.peek.kind = k
  · rw [bind_of_eq (accept_eq_true h), bind_of_eq (accept_eq_true (hs.peek.kind_eq.trans h))]
    have hend : s.peek.kind ≠ .endOfInput := h ▸ hk
    refine hx _ _ (hs.tail hend) ?_
    exact Nat.lt_of_lt_of_le (TakesAt.advance hend s hs.ends rfl) (Nat.le_of_lt_succ hn)
  · rw [bind_of_eq (accept_eq_false h),
      bind_of_eq (accept_eq_false fun h' => h (hs.peek.kind_eq.symm.trans h'))]
    exact hy s s' hs hn rfl rfl

theorem Lockstep.acceptIf {k : Token.Kind} (hk : k ≠ .endOfInput) {x y : Parser α}
    {x' y' : Parser α'} (hx : Lockstep E M n R x x') (hy : Lockstep E M (n + 1) R y y') :
    Lockstep E M (n + 1) R (accept k >>= fun b => if b = true then x else y)
      (accept k >>= fun b => if b = true then x' else y') :=
  fun s s' hs hn => LockstepAt.acceptIf hk hx hy.toAt s s' hs hn rfl rfl

/-- What matters of a token that was asked for. -/
structure NameLike (M : Loc → Loc → Prop) (t t' : Token) : Prop where
  text_eq : t'.text = t.text
  loc_like : M t.loc t'.loc

theorem expect_lockstep {k : Token.Kind} (hk : k ≠ .endOfInput) (w : Wanted) :
    Lockstep E M n (NameLike M) (expect k w) (expect k w) := by
  refine .peekThen fun t t' ht => ?_
  rw [ht.kind_eq]
  refine .ite (fun h => ?_) fun h => .ite (fun hend => ?_) fun hend => ?_
  · rintro s s' hs - rfl rfl
    have hend : s.peek.kind ≠ .endOfInput := h ▸ hk
    exact ⟨⟨ht.text_eq hend, ht.tree_like⟩, hs.tail hend⟩
  · exact .reportThen (fun s s' hs _ _ _ => ⟨⟨hs.fallback_text, hs.fallback_like⟩, hs⟩) _
  · rw [ht.text_eq hend]
    refine .reportThen ?_ _
    rintro s s' hs - rfl rfl
    exact ⟨⟨rfl, ht.tree_like⟩, hs.tail hend⟩

theorem expectSign_lockstep (c : Symbol) (w : Wanted) :
    Lockstep E M n (fun _ _ => True) (expectSign c w) (expectSign c w) :=
  fun s s' hs hn => ⟨trivial, (expect_lockstep (k := .symbol c) (by simp) w s s' hs hn).2⟩

theorem expectWord_lockstep (k : Keyword) (w : Wanted) :
    Lockstep E M n (fun _ _ => True) (expectWord k w) (expectWord k w) :=
  fun s s' hs hn => ⟨trivial, (expect_lockstep (k := .keyword k) (by simp) w s s' hs hn).2⟩

theorem Lockstep.signThen {c : Symbol} {w : Wanted} {y : Parser α} {y' : Parser α'}
    (h : Lockstep E M n R y y') :
    Lockstep E M n R (expectSign c w >>= fun _ => y) (expectSign c w >>= fun _ => y') :=
  .andThen (expectSign_lockstep c w) h

theorem Lockstep.wordThen {k : Keyword} {w : Wanted} {y : Parser α} {y' : Parser α'}
    (h : Lockstep E M n R y y') :
    Lockstep E M n R (expectWord k w >>= fun _ => y) (expectWord k w >>= fun _ => y') :=
  .andThen (expectWord_lockstep k w) h

theorem Lockstep.expectSignThen (c : Symbol) (w : Wanted) {y : Parser α} {y' : Parser α'}
    (h : Lockstep E M (max n 1) R y y') :
    Lockstep E M (n + 1) R (expectSign c w >>= fun _ => y) (expectSign c w >>= fun _ => y') := by
  intro s s' hs hn
  refine h _ _ (expectSign_lockstep c w s s' hs hn).2 ?_
  show (expectSign c w s).2.left < max n 1
  by_cases hend : s.peek.kind = .endOfInput
  · have hzero := (State.left_eq_zero_iff hs.ends).mpr hend
    have hle := (Forward.later (expectSign c w) s).left_le
    omega
  · have hlt := Takes.takesAt (x := expectSign c w) s.peek hend s hs.ends rfl
    omega

theorem typeName_lockstep (w : Wanted) :
    Lockstep E M n (Tree.Like M) (typeName w) (typeName w) := by
  refine .peekThen fun t t' ht => ?_
  rw [ht.kind_eq]
  refine .ite (fun h => ?_) fun _ => .reportThen (.pure (.leaf ht.tree_like)) _
  have hend := ne_end_of_isType h
  rw [ht.text_eq hend]
  rintro s s' hs - rfl rfl
  exact ⟨.leaf ht.tree_like, hs.tail hend⟩

end Tokens

/-! ## Lists -/

theorem commaTail_eq_nil (item : Parser Tree) (m : Nat) (h : s.peek.kind = .endOfInput) :
    commaTail item (m + 1) s = ([], s) := by
  unfold commaTail
  rw [bind_of_eq (accept_eq_false (h ▸ nofun))]
  rfl

theorem Lockstep.of_stops {R : α → α' → Prop} {x : Parser α} {x' : Parser α'} {a : α} {a' : α'}
    (h : R a a') (hx : ∀ s : State, s.peek.kind = .endOfInput → x s = (a, s))
    (hx' : ∀ s : State, s.peek.kind = .endOfInput → x' s = (a', s)) :
    Lockstep E M 1 R x x' := by
  intro s s' hs hn
  have hend : s.peek.kind = .endOfInput :=
    (State.left_eq_zero_iff hs.ends).mp (Nat.lt_one_iff.mp hn)
  rw [hx s hend, hx' s' (hs.peek.kind_eq.trans hend)]
  exact ⟨h, hs⟩

theorem commaTail_lockstep {item item' : Parser Tree} [Forward item] {N : Nat}
    (hitem : Lockstep E M N (Tree.Like M) item item') {m m' : Nat} (hN : n ≤ N) (hm : n ≤ m)
    (hm' : n ≤ m') :
    Lockstep E M (n + 1) (Tree.AllLike M) (commaTail item (m + 1)) (commaTail item' (m' + 1)) := by
  induction n generalizing m m' with
  | zero =>
    exact .of_stops .nil (fun _ => commaTail_eq_nil item m) fun _ => commaTail_eq_nil item' m'
  | succ n ih =>
    obtain ⟨m, rfl⟩ := Nat.exists_eq_add_of_le' hm
    obtain ⟨m', rfl⟩ := Nat.exists_eq_add_of_le' hm'
    unfold commaTail
    refine .acceptIf Token.Kind.noConfusion ?_ (.pure .nil)
    refine (hitem.mono hN).bind fun a a' ha => ?_
    refine (ih (Nat.le_of_succ_le hN) (Nat.le_add_left n m) (Nat.le_add_left n m')).bind
      fun ts ts' hts => ?_
    exact .pure (.cons ha hts)

theorem commaSeparated_lockstep {item item' : Parser Tree} [Forward item]
    (hitem : Lockstep E M (n + 1) (Tree.Like M) item item') {m m' : Nat} (hm : n ≤ m)
    (hm' : n ≤ m') :
    Lockstep E M (n + 1) (Tree.AllLike M) (commaSeparated m item) (commaSeparated m' item') :=
  hitem.bind fun _ _ ha => (commaTail_lockstep hitem (Nat.le_succ n) hm hm').bind fun _ _ hts =>
    .pure (.cons ha hts)

end Parser

/-! ## Productions -/

/-- Productions that go in lock step where fewer than `n` tokens are left. -/
structure Productions.Agree (E M : Loc → Loc → Prop) (n : Nat) (r r' : Productions) : Prop where
  bound_le : n ≤ r.bound
  bound_le' : n ≤ r'.bound
  expression : Parser.Lockstep E M n (Tree.Like M) r.expression r'.expression
  assignment : Parser.Lockstep E M n (Tree.Like M) r.assignment r'.assignment
  unary : Parser.Lockstep E M n (Tree.Like M) r.unary r'.unary
  statement : Parser.Lockstep E M n (Tree.Like M) r.statement r'.statement
  takes : 0 < n → Parser.Takes r.statement

namespace Parser

section Expressions

variable {r r' : Productions} [r.IsForward] (h : Productions.Agree E M n r r')

include h

theorem primary_lockstep : Lockstep E M (n + 1) (Tree.Like M) (primary r) (primary r') := by
  refine .peekThen fun t t' ht => ?_
  have hleaf (kind : Tree.Kind) (hk : t.kind ≠ .endOfInput) :
    LockstepAt E M (n + 1) t t' (Tree.Like M)
      (advance >>= fun _ => pure (leaf kind t)) (advance >>= fun _ => pure (leaf kind t')) := by
    refine .advanceThen hk ?_
    unfold leaf
    rw [ht.text_eq hk]
    exact .pure (.leaf ht.tree_like)
  rw [ht.kind_eq]
  split
  · next hk => exact hleaf _ (by simp [hk])
  · next hk => exact hleaf _ (by simp [hk])
  · next hk => exact hleaf _ (by simp [hk])
  · next hk =>
    refine .advanceThen (by simp [hk]) ?_
    exact h.expression.bind fun _ _ he => .signThen (.pure he)
  · exact .reportThen (.pure (.leaf ht.tree_like)) _
  · next hend =>
    have hzero : Lockstep E M n (Tree.Like M) (pure (zero t.loc)) (pure (zero t'.loc)) :=
      .pure (.leaf ht.tree_like)
    rw [ht.text_eq hend]
    exact .reportThen (.advanceThen hend hzero) _

theorem arguments_lockstep : Lockstep E M n (Tree.AllLike M) (arguments r) (arguments r') := by
  cases n with
  | zero => exact fun _ _ _ hn => absurd hn (Nat.not_lt_zero _)
  | succ n =>
    refine .acceptIf Token.Kind.noConfusion (.pure .nil) ?_
    refine (commaSeparated_lockstep h.assignment (Nat.le_of_succ_le h.bound_le)
      (Nat.le_of_succ_le h.bound_le')).bind
      fun _ _ hargs => ?_
    exact .signThen (.pure hargs)

omit h [r.IsForward] in
theorem suffixes_eq_self (m : Nat) (base : Tree) (hend : s.peek.kind = .endOfInput) :
    suffixes r (m + 1) base s = (base, s) := by
  unfold suffixes
  rw [bind_of_eq (accept_eq_false (hend ▸ nofun)), if_neg Bool.false_ne_true,
    bind_of_eq (accept_eq_false (hend ▸ nofun))]
  rfl

theorem suffixes_lockstep {k m m' : Nat} (hk : k ≤ n) (hm : k ≤ m) (hm' : k ≤ m')
    {base base' : Tree} (hbase : Tree.Like M base base') :
    Lockstep E M (k + 1) (Tree.Like M) (suffixes r (m + 1) base)
      (suffixes r' (m' + 1) base') := by
  induction k generalizing m m' base base' with
  | zero =>
    exact .of_stops hbase (fun _ => suffixes_eq_self m base) fun _ => suffixes_eq_self m' base'
  | succ k ih =>
    obtain ⟨m, rfl⟩ := Nat.exists_eq_add_of_le' hm
    obtain ⟨m', rfl⟩ := Nat.exists_eq_add_of_le' hm'
    have ih {base base' : Tree} (hbase : Tree.Like M base base') :=
      ih (Nat.le_of_succ_le hk) (Nat.le_add_left k m) (Nat.le_add_left k m') hbase
    unfold suffixes
    refine .acceptIf Token.Kind.noConfusion ?_ (.acceptIf Token.Kind.noConfusion ?_ (.pure hbase))
    · refine ((arguments_lockstep h).mono hk).bind fun args args' hargs => ih ?_
      exact .mk _ _ _ _ _ _ _ hbase.loc_like (.cons hbase hargs)
    · refine (h.expression.mono hk).bind fun i i' hi => .signThen (ih ?_)
      exact .two hbase.loc_like hbase hi

theorem suffixed_lockstep : Lockstep E M (n + 1) (Tree.Like M) (suffixed r) (suffixed r') := by
  refine (primary_lockstep h).bind fun base base' hbase => ?_
  rw [hbase.kind_eq]
  split
  · exact suffixes_lockstep h (Nat.le_refl n) h.bound_le h.bound_le' hbase
  · exact .pure hbase

theorem unary_lockstep : Lockstep E M (n + 1) (Tree.Like M) (unary r) (unary r') := by
  refine .peekThen fun t t' ht => ?_
  have hsign (hk : t.kind ≠ .endOfInput) : LockstepAt E M (n + 1) t t' (Tree.Like M)
      (do
        let _ ← advance
        let operand ← r.unary
        return ⟨.unary, t.text, false, t.loc, [operand]⟩)
      (do
        let _ ← advance
        let operand ← r'.unary
        return ⟨.unary, t'.text, false, t'.loc, [operand]⟩) := by
    refine .advanceThen hk ?_
    rw [ht.text_eq hk]
    exact h.unary.bind fun _ _ he => .pure (.one ht.tree_like he)
  rw [ht.kind_eq]
  split
  · next hk => exact hsign (by simp [hk])
  · next hk => exact hsign (by simp [hk])
  · next hk => exact hsign (by simp [hk])
  · exact (suffixed_lockstep h).toAt

omit h [r.IsForward] in
theorem operatorTail_eq_self (ops : List Symbol) (operand : Parser Tree) (m : Nat) (left : Tree)
    (hend : s.peek.kind = .endOfInput) : operatorTail ops operand (m + 1) left s = (left, s) := by
  show (if isOneOf ops s.peek.kind then _ else _ : Parser Tree) s = _
  rw [if_neg fun hop => ne_end_of_isOneOf hop hend]
  rfl

omit h [r.IsForward] in
theorem operatorTail_lockstep (ops : List Symbol) {operand operand' : Parser Tree} [Forward operand]
    (hoperand : Lockstep E M (n + 1) (Tree.Like M) operand operand') {k m m' : Nat} (hk : k ≤ n)
    (hm : k ≤ m) (hm' : k ≤ m') {left left' : Tree} (hleft : Tree.Like M left left') :
    Lockstep E M (k + 1) (Tree.Like M) (operatorTail ops operand (m + 1) left)
      (operatorTail ops operand' (m' + 1) left') := by
  induction k generalizing m m' left left' with
  | zero =>
    exact .of_stops hleft (fun _ => operatorTail_eq_self ops operand m left) fun _ =>
      operatorTail_eq_self ops operand' m' left'
  | succ k ih =>
    obtain ⟨m, rfl⟩ := Nat.exists_eq_add_of_le' hm
    obtain ⟨m', rfl⟩ := Nat.exists_eq_add_of_le' hm'
    refine .peekThen fun t t' ht => ?_
    rw [ht.kind_eq]
    refine .ite (fun hop => ?_) fun _ => .pure hleft
    have hend := ne_end_of_isOneOf hop
    refine .advanceThen hend ((hoperand.mono (Nat.le_succ_of_le hk)).bind
      fun right right' hright => ?_)
    rw [ht.text_eq hend]
    exact ih (Nat.le_of_succ_le hk) (Nat.le_add_left k m) (Nat.le_add_left k m')
      (.two hleft.loc_like hleft hright)

omit [r.IsForward] in
theorem operatorLevel_lockstep (ops : List Symbol) {operand operand' : Parser Tree}
    [Forward operand] (hoperand : Lockstep E M (n + 1) (Tree.Like M) operand operand') :
    Lockstep E M (n + 1) (Tree.Like M) (operatorLevel r ops operand)
      (operatorLevel r' ops operand') :=
  hoperand.bind fun _ _ hleft => operatorTail_lockstep ops hoperand (Nat.le_refl n) h.bound_le
    h.bound_le' hleft

theorem equality_lockstep : Lockstep E M (n + 1) (Tree.Like M) (equality r) (equality r') :=
  operatorLevel_lockstep h _ (operatorLevel_lockstep h _ (operatorLevel_lockstep h _
    (operatorLevel_lockstep h _ (unary_lockstep h))))

theorem assignment_lockstep :
    Lockstep E M (n + 1) (Tree.Like M) (assignment r) (assignment r') := by
  refine (equality_lockstep h).bind fun target target' ht =>
    .acceptIf Token.Kind.noConfusion ?_ (.pure ht)
  have hvalue : Lockstep E M n (Tree.Like M) (do
        let value ← r.assignment
        return ⟨.assign, "=", false, target.loc, [target, value]⟩)
      (do
        let value ← r'.assignment
        return ⟨.assign, "=", false, target'.loc, [target', value]⟩) :=
    h.assignment.bind fun _ _ hv => .pure (.two ht.loc_like ht hv)
  dsimp only
  rw [ht.kind_eq]
  split
  · exact hvalue
  · exact .andThen (.report _) hvalue

theorem expression_lockstep :
    Lockstep E M (n + 1) (Tree.Like M) (expression r) (expression r') := by
  refine (assignment_lockstep h).bind fun left left' hl =>
    .acceptIf Token.Kind.noConfusion ?_ (.pure hl)
  exact h.expression.bind fun _ _ hr => .pure (.two hl.loc_like hl hr)

end Expressions

section Statements

variable {r r' : Productions} [r.IsForward] (h : Productions.Agree E M n r r')

omit [r.IsForward] in
theorem statements_eq_nil (m : Nat) (hend : s.peek.kind = .endOfInput) :
    statements r (m + 1) s = ([], s) := by
  show (if s.peek.kind = .endOfInput ∨ s.peek.kind = .symbol .closeBrace then _
    else _ : Parser (List Tree)) s = _
  rw [if_pos (.inl hend)]
  rfl

include h

theorem statements_lockstep {k m m' : Nat} (hk : k ≤ n) (hm : k ≤ m) (hm' : k ≤ m') :
    Lockstep E M (max k 1) (Tree.AllLike M) (statements r (m + 1)) (statements r' (m' + 1)) := by
  induction k generalizing m m' with
  | zero => exact .of_stops .nil (fun _ => statements_eq_nil m) fun _ => statements_eq_nil m'
  | succ k ih =>
    rw [Nat.max_eq_left (Nat.succ_pos k)]
    obtain ⟨m, rfl⟩ := Nat.exists_eq_add_of_le' hm
    obtain ⟨m', rfl⟩ := Nat.exists_eq_add_of_le' hm'
    have ih : Lockstep E M k (Tree.AllLike M) (statements r (m + k + 1))
        (statements r' (m' + k + 1)) :=
      (ih (Nat.le_of_succ_le hk) (Nat.le_add_left k m) (Nat.le_add_left k m')).mono
        (Nat.le_max_left k 1)
    refine .peekThen fun t t' ht => ?_
    rw [ht.kind_eq]
    refine .ite (fun _ => .pure .nil) fun hgo => .acceptIf Token.Kind.noConfusion ih ?_
    have := h.takes (Nat.lt_of_lt_of_le (Nat.succ_pos k) hk)
    refine .takeThen (not_or.mp hgo).1 (h.statement.mono hk).toAt fun first first' hfirst => ?_
    exact ih.bind fun ts ts' hts => .pure (.cons hfirst hts)

theorem block_lockstep : Lockstep E M (n + 1) (Tree.Like M) (block r) (block r') := by
  refine .hereThen fun loc loc' hloc => .expectSignThen _ _ ?_
  refine (statements_lockstep h (Nat.le_refl n) h.bound_le h.bound_le').bind fun ts ts' hts => ?_
  exact .signThen (.pure (.mk _ _ _ _ _ _ _ hloc hts))

theorem declarator_lockstep :
    Lockstep E M (n + 1) (Tree.Like M) (declarator r) (declarator r') := by
  refine (expect_lockstep Token.Kind.noConfusion _).bind fun name name' hname => ?_
  have hsized (value value' : List Tree) (hv : Tree.AllLike M value value') :
      Lockstep E M (n + 1) (Tree.Like M)
        (do
          if ← accept (.symbol .openBracket) then
            unless value.isEmpty do report .arrayInitializer
            let size ← expression r
            expectSign .closeBracket (.item "']'")
            return ⟨.declarator, name.text, true, name.loc, [size]⟩
          else
            return ⟨.declarator, name.text, false, name.loc, value⟩)
        (do
          if ← accept (.symbol .openBracket) then
            unless value'.isEmpty do report .arrayInitializer
            let size ← expression r'
            expectSign .closeBracket (.item "']'")
            return ⟨.declarator, name'.text, true, name'.loc, [size]⟩
          else
            return ⟨.declarator, name'.text, false, name'.loc, value'⟩) := by
    rw [hname.text_eq]
    refine .acceptIf Token.Kind.noConfusion ?_ (.pure (.mk _ _ _ _ _ _ _ hname.loc_like hv))
    have hsize : Lockstep E M n (Tree.Like M)
        (do
          let size ← expression r
          expectSign .closeBracket (.item "']'")
          return ⟨.declarator, name.text, true, name.loc, [size]⟩)
        (do
          let size ← expression r'
          expectSign .closeBracket (.item "']'")
          return ⟨.declarator, name.text, true, name'.loc, [size]⟩) :=
      ((expression_lockstep h).mono (Nat.le_succ n)).bind fun _ _ he =>
        .signThen (.pure (.one hname.loc_like he))
    cases hv with
    | nil => exact hsize
    | cons => exact .andThen (.report _) hsize
  refine .acceptIf Token.Kind.noConfusion ?_ (hsized [] [] .nil)
  refine ((assignment_lockstep h).mono (Nat.le_succ n)).bind fun e e' he => ?_
  exact (hsized [e] [e'] (.cons he .nil)).mono (Nat.le_succ n)

theorem declaration_lockstep :
    Lockstep E M (n + 1) (Tree.Like M) (declaration r) (declaration r') := by
  refine .hereThen fun loc loc' hloc => (typeName_lockstep _).bind fun ty ty' hty => ?_
  refine (commaSeparated_lockstep (declarator_lockstep h) h.bound_le h.bound_le').bind
    fun names names' hnames => ?_
  exact .signThen (.pure (.mk _ _ _ _ _ _ _ hloc (.cons hty hnames)))

omit h [r.IsForward] in
theorem elseBranches_eq_nil (m : Nat) (hend : s.peek.kind = .endOfInput) :
    elseBranches r (m + 1) s = ([], s) := by
  have hhere : here s = (s.peek.loc, s) := rfl
  unfold elseBranches
  rw [bind_of_eq hhere, bind_of_eq (accept_eq_false (hend ▸ nofun))]
  rfl

theorem elseBranches_lockstep {k m m' : Nat} (hk : k ≤ n) (hm : k ≤ m) (hm' : k ≤ m') :
    Lockstep E M (k + 1) (Tree.AllLike M) (elseBranches r (m + 1)) (elseBranches r' (m' + 1)) := by
  induction k generalizing m m' with
  | zero => exact .of_stops .nil (fun _ => elseBranches_eq_nil m) fun _ => elseBranches_eq_nil m'
  | succ k ih =>
    obtain ⟨m, rfl⟩ := Nat.exists_eq_add_of_le' hm
    obtain ⟨m', rfl⟩ := Nat.exists_eq_add_of_le' hm'
    have ih := ih (Nat.le_of_succ_le hk) (Nat.le_add_left k m) (Nat.le_add_left k m')
    have hle : k + 1 ≤ n + 1 := Nat.succ_le_succ (Nat.le_of_succ_le hk)
    refine .hereThen fun loc loc' hloc => .acceptIf Token.Kind.noConfusion ?_ (.pure .nil)
    refine .acceptIf Token.Kind.noConfusion ?_ ?_
    · refine .signThen ?_
      refine ((expression_lockstep h).mono (Nat.le_of_succ_le hle)).bind fun c c' hc => .signThen ?_
      refine ((block_lockstep h).mono (Nat.le_of_succ_le hle)).bind fun body body' hbody => ?_
      exact (ih.mono (Nat.le_succ k)).bind fun ts ts' hts => .pure (.cons (.two hloc hc hbody) hts)
    · exact ((block_lockstep h).mono hle).bind fun body body' hbody => .pure (.cons hbody .nil)

theorem conditional_lockstep :
    Lockstep E M (n + 1) (Tree.Like M) (conditional r) (conditional r') := by
  refine .hereThen fun loc loc' hloc => .wordThen (.signThen ?_)
  refine (expression_lockstep h).bind fun c c' hc => .signThen ?_
  refine (block_lockstep h).bind fun body body' hbody => ?_
  refine (elseBranches_lockstep h (Nat.le_refl n) h.bound_le h.bound_le').bind fun ts ts' hts => ?_
  exact .pure (.mk _ _ _ _ _ _ _ hloc (.cons hc (.cons hbody hts)))

theorem whileLoop_lockstep : Lockstep E M (n + 1) (Tree.Like M) (whileLoop r) (whileLoop r') := by
  refine .hereThen fun loc loc' hloc => .wordThen (.signThen ?_)
  refine (expression_lockstep h).bind fun c c' hc => .signThen ?_
  exact (block_lockstep h).bind fun body body' hbody => .pure (.two hloc hc hbody)

theorem doWhile_lockstep : Lockstep E M (n + 1) (Tree.Like M) (doWhile r) (doWhile r') := by
  refine .hereThen fun loc loc' hloc => .wordThen ?_
  refine (block_lockstep h).bind fun body body' hbody => .wordThen ?_
  refine .signThen ((expression_lockstep h).bind fun c c' hc => ?_)
  exact .signThen (.signThen (.pure (.two hloc hbody hc)))

theorem forFirst_lockstep : Lockstep E M (n + 1) (Tree.Like M) (forFirst r) (forFirst r') := by
  refine .peekThen fun t t' ht => ?_
  rw [ht.kind_eq]
  refine .ite (fun _ => (declaration_lockstep h).toAt) fun _ => Lockstep.toAt ?_
  refine .acceptIf Token.Kind.noConfusion (.pure (.leaf ht.tree_like)) ?_
  exact (expression_lockstep h).bind fun e e' he => .signThen (.pure (.one ht.tree_like he))

theorem optionalBefore_lockstep (c : Symbol) :
    Lockstep E M (n + 1) (Tree.Like M) (optionalBefore r c) (optionalBefore r' c) := by
  refine .peekThen fun t t' ht => ?_
  rw [ht.kind_eq]
  exact .ite (fun _ => .pure (.leaf ht.tree_like)) fun _ => (expression_lockstep h).toAt

theorem forLoop_lockstep : Lockstep E M (n + 1) (Tree.Like M) (forLoop r) (forLoop r') := by
  refine .hereThen fun loc loc' hloc => .wordThen (.signThen ?_)
  refine (forFirst_lockstep h).bind fun first first' hfirst => ?_
  refine (optionalBefore_lockstep h _).bind fun c c' hc => .signThen ?_
  refine (optionalBefore_lockstep h _).bind fun step step' hstep => .signThen ?_
  refine (block_lockstep h).bind fun body body' hbody => .pure (.mk _ _ _ _ _ _ _ hloc ?_)
  exact .cons hfirst (.cons hc (.cons hstep (.cons hbody .nil)))

theorem returnStmt_lockstep :
    Lockstep E M (n + 1) (Tree.Like M) (returnStmt r) (returnStmt r') := by
  refine .hereThen fun loc loc' hloc => .wordThen (.peekThen fun t t' ht => ?_)
  rw [ht.kind_eq]
  refine .ite (fun _ => Lockstep.toAt ?_) fun _ => Lockstep.toAt ?_
  · exact .signThen (.pure (.leaf hloc))
  · exact (expression_lockstep h).bind fun e e' he => .signThen (.pure (.one hloc he))

theorem exprStmt_lockstep : Lockstep E M (n + 1) (Tree.Like M) (exprStmt r) (exprStmt r') := by
  refine .hereThen fun loc loc' hloc => (expression_lockstep h).bind fun e e' he => ?_
  exact .signThen (.pure (.one hloc he))

omit h in
theorem jump_lockstep {t t' : Token} (ht : TokenLike E M t t') (hk : t.kind ≠ .endOfInput)
    (kind : Tree.Kind) (text word : String) :
    LockstepAt E M (n + 1) t t' (Tree.Like M) (jump kind text word) (jump kind text word) := by
  have hrest : Lockstep E M n (Tree.Like M)
      (do
        expectSign .semicolon (.behind "';'" word)
        return { kind, text, loc := t.loc })
      (do
        expectSign .semicolon (.behind "';'" word)
        return { kind, text, loc := t'.loc }) :=
    .signThen (.pure (.leaf ht.tree_like))
  exact .advanceThen hk hrest

theorem statement_lockstep : Lockstep E M (n + 1) (Tree.Like M) (statement r) (statement r') := by
  refine .peekThen fun t t' ht => ?_
  rw [ht.kind_eq]
  split
  · exact (block_lockstep h).toAt
  · exact (conditional_lockstep h).toAt
  · exact (whileLoop_lockstep h).toAt
  · exact (doWhile_lockstep h).toAt
  · exact (forLoop_lockstep h).toAt
  · exact (returnStmt_lockstep h).toAt
  · next hk => exact jump_lockstep ht (by simp [hk]) _ _ _
  · next hk => exact jump_lockstep ht (by simp [hk]) _ _ _
  · exact .ite (fun _ => (declaration_lockstep h).toAt) fun _ => (exprStmt_lockstep h).toAt

omit h [r.IsForward] in
theorem parameter_lockstep : Lockstep E M n (Tree.Like M) parameter parameter := by
  refine (typeName_lockstep _).bind fun ty ty' hty => ?_
  refine (expect_lockstep Token.Kind.noConfusion _).bind fun name name' hname => ?_
  refine (accept_lockstep Token.Kind.noConfusion).bind fun isArray isArray' hsame => ?_
  subst hsame
  rw [hname.text_eq]
  have hdone : Lockstep E M n (Tree.Like M)
      (pure ⟨.parameter, name.text, isArray, ty.loc, [ty]⟩)
      (pure ⟨.parameter, name.text, isArray, ty'.loc, [ty']⟩) :=
    .pure (.one hty.loc_like hty)
  dsimp only
  split
  · exact .signThen hdone
  · exact hdone

omit [r.IsForward] in
theorem parameters_lockstep :
    Lockstep E M (n + 1) (Tree.AllLike M) (parameters r) (parameters r') := by
  refine .acceptIf Token.Kind.noConfusion (.pure .nil) ?_
  refine (commaSeparated_lockstep parameter_lockstep h.bound_le h.bound_le').bind
    fun ps ps' hps => ?_
  exact .signThen (.pure hps)

theorem function_lockstep : Lockstep E M (n + 1) (Tree.Like M) (function r) (function r') := by
  refine .hereThen fun loc loc' hloc => .wordThen ?_
  refine (typeName_lockstep _).bind fun ty ty' hty => ?_
  refine (expect_lockstep Token.Kind.noConfusion _).bind fun name name' hname => ?_
  refine .signThen ((parameters_lockstep h).bind fun ps ps' hps => ?_)
  refine (block_lockstep h).bind fun body body' hbody => ?_
  rw [hname.text_eq]
  exact .pure (.mk _ _ _ _ _ _ _ hloc (.cons hty (hps.append (.cons hbody .nil))))

theorem items_lockstep {k m m' : Nat} (hk : k ≤ n) (hm : k ≤ m) (hm' : k ≤ m') :
    Lockstep E M (k + 1) (Tree.AllLike M) (items r (m + 1)) (items r' (m' + 1)) := by
  induction k generalizing m m' with
  | zero => exact .of_stops .nil (fun _ => items_eq_nil r m) fun _ => items_eq_nil r' m'
  | succ k ih =>
    obtain ⟨m, rfl⟩ := Nat.exists_eq_add_of_le' hm
    obtain ⟨m', rfl⟩ := Nat.exists_eq_add_of_le' hm'
    have ih := ih (Nat.le_of_succ_le hk) (Nat.le_add_left k m) (Nat.le_add_left k m')
    have hrest {first first' : Tree} (hfirst : Tree.Like M first first') :
      Lockstep E M (k + 1) (Tree.AllLike M)
        (do return first :: (← items r (m + k + 1)))
        (do return first' :: (← items r' (m' + k + 1))) :=
      ih.bind fun ts ts' hts => .pure (.cons hfirst hts)
    refine .peekThen fun t t' ht => ?_
    rw [ht.kind_eq]
    refine .ite (fun _ => .pure .nil) fun hend => .acceptIf Token.Kind.noConfusion ih ?_
    refine .ite (fun _ => ?_) fun _ => ?_
    · exact .takeThen hend ((function_lockstep h).mono (Nat.succ_le_succ hk)).toAt fun _ _ => hrest
    · exact .takeThen hend ((statement_lockstep h).mono (Nat.succ_le_succ hk)).toAt fun _ _ => hrest

end Statements

end Parser

/-! ## Programs -/

/-- **Productions agree** where both have levels of recursion for all tokens that are left. -/
theorem Productions.agree_upTo {E M : Loc → Loc → Prop} {n a b : Nat} (ha : n ≤ a) (hb : n ≤ b) :
    Agree E M n (upTo a) (upTo b) := by
  induction n generalizing a b with
  | zero =>
    have hnone {x x' : Parser Tree} : Parser.Lockstep E M 0 (Tree.Like M) x x' :=
      fun _ _ _ h => absurd h (Nat.not_lt_zero _)
    exact ⟨Nat.zero_le _, Nat.zero_le _, hnone, hnone, hnone, hnone,
      fun h => absurd h (Nat.lt_irrefl 0)⟩
  | succ n ih =>
    obtain ⟨a, rfl⟩ := Nat.exists_eq_add_of_le' ha
    obtain ⟨b, rfl⟩ := Nat.exists_eq_add_of_le' hb
    have hagree := ih (a := a + n) (b := b + n) (Nat.le_add_left n a) (Nat.le_add_left n b)
    refine ⟨by rwa [bound_upTo], by rwa [bound_upTo], Parser.expression_lockstep hagree,
      Parser.assignment_lockstep hagree,
      Parser.unary_lockstep hagree, Parser.statement_lockstep hagree, fun _ => ?_⟩
    exact inferInstanceAs (Parser.Takes (Parser.statement _))

namespace Parser

variable {E M : Loc → Loc → Prop} {s s' : State}

theorem State.Level.left_eq (h : s.Level E M s') : s'.left = s.left := by
  unfold State.left
  have hupcoming := h.upcoming
  generalize s.rest = rest, s'.rest = rest' at hupcoming
  induction hupcoming with
  | stop ts ts' hend hlike =>
    have hnone (e : Token) (ts : List Token) (h : (ts.headD e).kind = .endOfInput) :
        ts.takeWhile isBefore = [] := by
      cases ts with
      | nil => rfl
      | cons t ts => exact List.takeWhile_cons_of_neg (by simpa [isBefore] using h)
    rw [hnone _ ts hend, hnone _ ts' (hlike.kind_eq.trans hend)]
  | more t t' ts ts' hk hlike _ ih =>
    have ht : isBefore t := by simpa [isBefore] using hk
    have ht' : isBefore t' := by simpa [isBefore, hlike.kind_eq] using hk
    rw [List.takeWhile_cons_of_pos ht, List.takeWhile_cons_of_pos ht', List.length_cons,
      ih, List.length_cons]

theorem State.left_le (s : State) : s.left ≤ s.rest.length :=
  (List.takeWhile_sublist isBefore).length_le

theorem items_upTo_lockstep (h : s.Level E M s') {a b m m' : Nat} (ha : s.left ≤ a)
    (hb : s.left ≤ b) (hm : s.left ≤ m) (hm' : s.left ≤ m') :
    Tree.AllLike M (items (.upTo a) (m + 1) s).1 (items (.upTo b) (m' + 1) s').1 ∧
      (items (.upTo a) (m + 1) s).2.Level E M (items (.upTo b) (m' + 1) s').2 :=
  items_lockstep (Productions.agree_upTo ha hb) (Nat.le_refl _) hm hm' s s' h (Nat.lt_succ_self _)

/-- **Programs are parsed in lock step.** -/
theorem program_lockstep (hM : M .start .start) (h : s.Level E M s') :
    Tree.Like M (program s).1 (program s').1 ∧ (program s).2.Level E M (program s').2 := by
  have hle := h.left_eq ▸ s'.left_le
  obtain ⟨htrees, hlevel⟩ := items_upTo_lockstep h s.left_le hle s.left_le hle
  exact ⟨.mk _ _ _ _ _ _ _ hM htrees, hlevel⟩

end Parser

end Stacklet
