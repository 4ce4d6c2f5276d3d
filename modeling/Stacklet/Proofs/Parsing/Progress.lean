import Stacklet.Proofs.Parsing.Lockstep
/-!
# Progress of the parser

* `Parser.items_upTo_eq`: spare rounds and levels of recursion change nothing.
* `Parser.State.Ordered`: errors stand in the order of the tokens. `Parser.Forward.ordered`: parsers
  keep that.
* `Parser.State.numbered`: a list of tokens with their numbers as places, so that an error tells the
  number of the token that it was recorded at.
* `Parser.program_progress`: any list of tokens is parsed up to the end of input, with errors in
  order, and what follows the end does not matter.
-/

namespace Stacklet

open List

namespace Parser

variable {α : Type} {E M : Loc → Loc → Prop} {s s' : State}

/-! ## Rounds and levels of recursion -/

theorem ErrorsLike.eq {es es' : List (Located SyntaxError)} (h : ErrorsLike Eq es es') :
    es' = es := by
  induction h with
  | nil => rfl
  | cons loc loc' cause es es' _ hloc _ ih => rw [ih, hloc]

theorem Upcoming.refl {E M : Loc → Loc → Prop} {e : Token} (he : e.kind = .endOfInput) :
    ∀ {ts : List Token}, (∀ t ∈ e :: ts, E t.loc t.loc ∧ M t.loc t.loc) → Upcoming E M e e ts ts
  | [], h => .stop _ _ he ⟨rfl, fun _ => rfl, (h e mem_cons_self).1, (h e mem_cons_self).2⟩
  | t :: ts, h => by
    obtain ⟨hself, ht, hts⟩ := forall_mem_cons.mp h |>.imp_right forall_mem_cons.mp
    have hlike : TokenLike E M t t := ⟨rfl, fun _ => rfl, ht.1, ht.2⟩
    by_cases hend : t.kind = .endOfInput
    · exact .stop _ _ hend hlike
    · exact .more _ _ _ _ hend hlike (refl he (forall_mem_cons.mpr ⟨hself, hts⟩))

/-- **Spare rounds and levels of recursion change nothing.** -/
theorem items_upTo_eq (hs : s.Ends) (herrors : s.errors = #[]) {a b m m' : Nat} (ha : s.left ≤ a)
    (hb : s.left ≤ b) (hm : s.left ≤ m) (hm' : s.left ≤ m') :
    items (.upTo a) (m + 1) s = items (.upTo b) (m' + 1) s := by
  have hlevel : s.Level Eq Eq s :=
    ⟨hs, .refl hs fun _ _ => ⟨rfl, rfl⟩, rfl, rfl, herrors ▸ .nil⟩
  obtain ⟨htrees, hafter⟩ := items_upTo_lockstep hlevel ha hb hm hm'
  have hlater := Forward.later (items (.upTo a) (m + 1)) s
  have hlater' := Forward.later (items (.upTo b) (m' + 1)) s
  have hrest := hlater.rest_eq (items_reach_end _ m hs hm)
  have hrest' := hlater'.rest_eq (items_reach_end _ m' hs hm')
  refine Prod.ext htrees.eq ?_
  have hfields {t t' : State} (hr : t.rest = t'.rest) (hf : t.fallback = t'.fallback)
      (he : t.errors = t'.errors) : t = t' := by
    obtain ⟨⟩ := t
    obtain ⟨⟩ := t'
    simp_all
  exact hfields (hrest.trans hrest'.symm) (hlater.fallback_eq.trans hlater'.fallback_eq.symm)
    (Array.toList_inj.mp hafter.errors_like.eq.symm)

/-! ## The order of errors -/

/-- The lines of the errors, of the tokens that are left and of the end. -/
def State.lines (s : State) : List Nat :=
  s.errors.toList.map (·.loc.line) ++ (s.rest.map (·.loc.line) ++ [s.fallback.loc.line])

/-- Errors and tokens stand in order. -/
def State.Ordered (s : State) : Prop := s.lines.Pairwise (· ≤ ·)

theorem Forward.ordered (x : Parser α) [h : Forward x] (hs : s.Ordered) : (x s).2.Ordered := by
  refine h.keeps (R := fun s s' => s.Ordered → s'.Ordered) (fun _ h => h) (fun h h' hs => h' (h hs))
    ?_ ?_ s hs
  · intro s t ts hr _ hs
    unfold State.Ordered State.lines at hs
    rw [hr] at hs
    exact hs.sublist ((List.Sublist.refl _).append ((sublist_cons_self _ _).append_right _))
  · intro s e hs
    -- the place of the next token is doubled
    have hnext : s.rest.map (·.loc.line) ++ [s.fallback.loc.line] =
        s.peek.loc.line :: (s.rest.map (·.loc.line) ++ [s.fallback.loc.line]).tail := by
      unfold State.peek
      cases s.rest <;> rfl
    have hlines : (Parser.report e s).2.lines = s.errors.toList.map (·.loc.line) ++
        s.peek.loc.line :: (s.rest.map (·.loc.line) ++ [s.fallback.loc.line]) := by
      show (s.errors.push _).toList.map _ ++ _ = _
      rw [Array.toList_push, map_append, append_assoc]
      rfl
    unfold State.Ordered State.lines at hs
    unfold State.Ordered
    rw [hlines]
    rw [hnext] at hs ⊢
    obtain ⟨herrors, hrest, hcross⟩ := pairwise_append.mp hs
    refine pairwise_append.mpr ⟨herrors, pairwise_cons.mpr ⟨?_, hrest⟩, ?_⟩
    · exact forall_mem_cons.mpr ⟨Nat.le_refl _, (pairwise_cons.mp hrest).1⟩
    · intro a ha b hb
      rcases mem_cons.mp hb with rfl | hb
      · exact hcross a ha _ mem_cons_self
      · exact hcross a ha b hb

/-! ## Numbered tokens -/

/-- The tokens with the numbers from `k` on as their lines. -/
def numberFrom (k : Nat) : List Token → List Token
  | [] => []
  | t :: ts => { t with loc := ⟨k, 0⟩ } :: numberFrom (k + 1) ts

/-- The start of a list of tokens in which each token has its number as place. -/
def State.numbered (tokens : List Token) : State :=
  { rest := numberFrom 0 tokens, fallback := ⟨.endOfInput, "", ⟨tokens.length, 0⟩⟩ }

/-- The place of the token with number `i`, or of the end behind the last one. -/
def placeOf (tokens : List Token) (i : Nat) : Loc :=
  (tokens[i]?.map Token.loc).getD (State.ofTokens tokens).fallback.loc

theorem numberFrom_map_line (k : Nat) (ts : List Token) :
    (numberFrom k ts).map (·.loc.line) = range' k ts.length := by
  induction ts generalizing k with
  | nil => rfl
  | cons t ts ih =>
    rw [numberFrom, map_cons, ih, length_cons, range'_succ]

theorem numbered_ordered (tokens : List Token) : (State.numbered tokens).Ordered := by
  have hlines : (State.numbered tokens).lines = range' 0 (tokens.length + 1) := by
    show [] ++ ((numberFrom 0 tokens).map (·.loc.line) ++ [tokens.length]) = _
    rw [numberFrom_map_line, range'_concat, nil_append, Nat.one_mul, Nat.zero_add]
  unfold State.Ordered
  rw [hlines]
  exact pairwise_le_range'

theorem numbered_level (tokens : List Token) :
    (State.numbered tokens).Level (fun l l' => l' = placeOf tokens l.line) (fun _ _ => True)
      (.ofTokens tokens) := by
  refine ⟨rfl, ?_, rfl, trivial, .nil⟩
  have hend : placeOf tokens tokens.length = (State.ofTokens tokens).fallback.loc := by
    rw [placeOf, getElem?_eq_none (Nat.le_refl _)]
    rfl
  -- the tokens behind some that were taken
  have hfrom (taken ts : List Token) (hts : tokens = taken ++ ts) :
      Upcoming (fun l l' => l' = placeOf tokens l.line) (fun _ _ => True)
        (State.numbered tokens).fallback
        (State.ofTokens tokens).fallback (numberFrom taken.length ts) ts := by
    induction ts generalizing taken with
    | nil => exact .stop _ _ rfl ⟨rfl, fun _ => rfl, hend.symm, trivial⟩
    | cons t ts ih =>
      have hplace : t.loc = placeOf tokens taken.length := by simp [placeOf, hts]
      have hlike : TokenLike (fun l l' => l' = placeOf tokens l.line) (fun _ _ => True)
          { t with loc := ⟨taken.length, 0⟩ } t := ⟨rfl, fun _ => rfl, hplace, trivial⟩
      by_cases ht : t.kind = .endOfInput
      · exact .stop _ _ ht hlike
      · refine .more _ _ _ _ ht hlike ?_
        have := ih (taken ++ [t]) (by rw [hts, append_assoc]; rfl)
        rwa [length_append] at this
  exact hfrom [] tokens rfl

theorem ErrorsLike.eq_map {es es' : List (Located SyntaxError)} {g : Loc → Loc}
    (h : ErrorsLike (fun l l' => l' = g l) es es') :
    es' = es.map fun e => ⟨g e.loc, e.cause⟩ := by
  induction h with
  | nil => rfl
  | cons loc loc' cause es es' _ hloc _ ih => rw [hloc, ih, map_cons]

theorem mem_lines_numberFrom (k : Nat) (ts : List Token) : k + (ts.takeWhile isBefore).length ∈
    ((numberFrom k ts).dropWhile isBefore).map (·.loc.line) ++ [k + ts.length] := by
  induction ts generalizing k with
  | nil => simp [numberFrom]
  | cons t ts ih =>
    by_cases ht : isBefore t
    · have ht' : isBefore { t with loc := ⟨k, 0⟩ } := ht
      have hfirst : k + (t :: ts.takeWhile isBefore).length =
          k + 1 + (ts.takeWhile isBefore).length := by
        rw [length_cons]
        omega
      have hlast : k + (t :: ts).length = k + 1 + ts.length := by
        rw [length_cons]
        omega
      rw [numberFrom, dropWhile_cons_of_pos ht', takeWhile_cons_of_pos ht, hfirst, hlast]
      exact ih (k + 1)
    · have ht' : ¬isBefore { t with loc := ⟨k, 0⟩ } := ht
      rw [numberFrom, dropWhile_cons_of_neg ht', takeWhile_cons_of_neg ht]
      exact mem_append_left _ mem_cons_self

theorem line_le_of_mem_errors {tokens : List Token} {e : Located SyntaxError}
    (he : e ∈ (program (.numbered tokens)).2.errors.toList) :
    e.loc.line ≤ (tokens.takeWhile isBefore).length := by
  have := program_forward
  have hordered := Forward.ordered program (numbered_ordered tokens)
  have hrest : (program (.numbered tokens)).2.rest = (numberFrom 0 tokens).dropWhile isBefore :=
    rest_program rfl
  have hfallback := (Forward.later program (.numbered tokens)).fallback_eq
  unfold State.Ordered State.lines at hordered
  rw [hrest, hfallback] at hordered
  have hmem := mem_lines_numberFrom 0 tokens
  rw [Nat.zero_add, Nat.zero_add] at hmem
  exact (pairwise_append.mp hordered).2.2 _ (mem_map_of_mem he) _ hmem

/-! ## Behind the end of input -/

theorem upcoming_append {e e' last : Token} (hlast : last.kind = .endOfInput)
    (tokens post post' : List Token) :
    Upcoming Eq (fun _ _ => True) e e' (tokens ++ last :: post) (tokens ++ last :: post') := by
  have hlike (t : Token) : TokenLike Eq (fun _ _ => True) t t := ⟨rfl, fun _ => rfl, rfl, trivial⟩
  induction tokens with
  | nil => exact .stop _ _ hlast (hlike last)
  | cons t ts ih =>
    by_cases ht : t.kind = .endOfInput
    · exact .stop _ _ ht (hlike t)
    · exact .more _ _ _ _ ht (hlike t) ih

/-- **Tokens behind the end of input do not matter.** -/
theorem parse_append_end {last : Token} (hlast : last.kind = .endOfInput)
    (tokens post post' : List Token) :
    (Tree.parse (tokens ++ last :: post)).2 = (Tree.parse (tokens ++ last :: post')).2 ∧
      (Tree.parse (tokens ++ last :: post)).1.same (Tree.parse (tokens ++ last :: post')).1 =
        true := by
  have hlevel : (State.ofTokens (tokens ++ last :: post)).Level Eq (fun _ _ => True)
      (.ofTokens (tokens ++ last :: post')) :=
    ⟨rfl, upcoming_append hlast tokens post post', rfl, trivial, .nil⟩
  obtain ⟨htrees, hafter⟩ := program_lockstep trivial hlevel
  exact ⟨Array.toList_inj.mp hafter.errors_like.eq.symm, htrees.same⟩

theorem program_eq_empty (h : s.peek.kind = .endOfInput) :
    program s = (⟨.program, "Program", false, .start, []⟩, s) := by
  have hnil := items_eq_nil (.upTo s.rest.length) s.rest.length h
  have hremaining : remaining s = (s.rest.length, s) := rfl
  unfold program
  rw [bind_of_eq hremaining, bind_of_eq hnil]
  rfl

/-- **Progress of the parser**, for any list of tokens. No bound of a loop or of the recursion is
used up, and spare rounds and levels change nothing. All that a run can do is to look, to take a
token before the end of input and to record an error at the next token. It stops at the first end of
input, or behind the last token. The errors are in the order of the tokens that they were recorded
at, which are found by numbering the tokens. What follows an end of input changes neither the errors
nor the tree. A second run finds nothing. -/
theorem program_progress (tokens : List Token) :
    (∀ e ∈ (program (.ofTokens tokens)).2.errors.toList, e.cause ≠ .unfinished) ∧
    (∀ m, items (.upTo (tokens.length + m)) (tokens.length + m + 1) (.ofTokens tokens) =
      items (.upTo tokens.length) (tokens.length + 1) (.ofTokens tokens)) ∧
    Forward program ∧
    (program (.ofTokens tokens)).2.rest = tokens.dropWhile isBefore ∧
    (((program (.numbered tokens)).2.errors.toList.map (·.loc.line)).Pairwise (· ≤ ·) ∧
      (∀ e ∈ (program (.numbered tokens)).2.errors.toList,
        e.loc.line ≤ (tokens.takeWhile isBefore).length) ∧
      (program (.ofTokens tokens)).2.errors.toList =
        (program (.numbered tokens)).2.errors.toList.map fun e =>
          ⟨placeOf tokens e.loc.line, e.cause⟩) ∧
    (∀ (text : String) (loc : Loc) (post post' : List Token),
      (Tree.parse (tokens ++ ⟨.endOfInput, text, loc⟩ :: post)).2 =
        (Tree.parse (tokens ++ ⟨.endOfInput, text, loc⟩ :: post')).2 ∧
      (Tree.parse (tokens ++ ⟨.endOfInput, text, loc⟩ :: post)).1.same
        (Tree.parse (tokens ++ ⟨.endOfInput, text, loc⟩ :: post')).1 = true) ∧
    program (program (.ofTokens tokens)).2 =
      ({ kind := .program, text := "Program", loc := .start }, (program (.ofTokens tokens)).2) := by
  have := program_forward
  have hends : (State.ofTokens tokens).Ends := rfl
  have hleft : (State.ofTokens tokens).left ≤ tokens.length := State.left_le _
  have hnumbered := (program_lockstep trivial (numbered_level tokens)).2.errors_like
  have hplaces := hnumbered.eq_map (g := fun loc => placeOf tokens loc.line)
  refine ⟨?_, fun m => ?_, program_forward, rest_program hends,
    ⟨?_, fun e => line_le_of_mem_errors, hplaces⟩, ?_, ?_⟩
  · rw [hplaces]
    exact forall_mem_map.mpr hnumbered.finished
  · have hmore : (State.ofTokens tokens).left ≤ tokens.length + m := Nat.le_add_right_of_le hleft
    exact items_upTo_eq hends rfl hmore hleft hmore hleft
  · have hordered := Forward.ordered program (numbered_ordered tokens)
    exact (List.pairwise_append.mp hordered).1
  · exact fun text loc => parse_append_end rfl tokens
  · exact program_eq_empty (items_reach_end (.upTo tokens.length) tokens.length hends hleft)

end Parser

end Stacklet
