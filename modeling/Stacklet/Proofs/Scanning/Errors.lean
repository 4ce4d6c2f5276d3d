import Stacklet.Proofs.Parsing.Language
import Stacklet.Proofs.Parsing.Tokens
/-!
# Lexical errors

* `DerivesItems.known`: what is written of a tree has no unknown characters, so a program has none.
* `DerivesItems.endsApart`: no derivation of a program ends in a string literal.
* `LeavesStringOpen`: a string literal of a text is not closed. `getLast?_of_leavesStringOpen`: it
  is the last token.
* **`compile_lexical_error`**: sources with unknown characters or with an open string literal have
  syntax errors.
-/

namespace Stacklet

open Piece List

/-! ## Unknown characters -/

/-- Tokens none of which is an unknown character. -/
def Known (ts : List Token) : Prop := ∀ t ∈ ts, t.kind ≠ .unknown

theorem DerivesItems.known {ts : List Token} {as : List Tree} (h : DerivesItems ts as)
    (hspell : AreSpelled ts) : Known ts := by
  intro t ht hk
  have hmem : (t.kind, t.text) ∈ essential ts :=
    mem_map.mpr ⟨t, mem_filter.mpr ⟨ht, by rw [hk]; rfl⟩, rfl⟩
  rw [← h.faithful hspell (fun _ => 0) (fun _ => none) 0] at hmem
  obtain ⟨u, hu, heq⟩ := mem_map.mp hmem
  obtain ⟨ws, hws, hmem⟩ := mem_flatten.mp (mem_filter.mp hu).1
  -- what is written of a tree has no unknown characters
  have hknown := Tree.forall_mem_writeAll (P := fun w => w.kind ≠ .unknown) (fun _ _ h => h) _ _
    0 as ws hws u hmem
  exact hknown ((congrArg Prod.fst heq).trans hk)

/-! ## Open string literals -/

/-- A string literal is not closed: it stands where `front` ends, and behind its opening quote there
is no other one. -/
def LeavesStringOpen (source : String) : Prop :=
  ∃ t ∈ Token.scan source, t.kind = .string ∧
    ∃ front rest, source.toList = front ++ '"' :: rest ∧ t.loc = .behind front ∧ '"' ∉ rest

theorem DerivesItems.endsApart {ts : List Token} {as : List Tree} (h : DerivesItems ts as)
    (hne : ts ≠ []) : EndsApart ts := by
  induction h with
  | nil => exact absurd rfl hne
  | skip c ts as hc _ ih =>
    by_cases hts : ts = []
    · rw [hts]
      exact endsApart_snoc (by rw [hc]; rfl) []
    · exact (ih hts).cons c
  | function ts us a as h _ ih =>
    by_cases hus : us = []
    · rw [hus, append_nil]
      exact h.endsApart
    · exact (ih hus).append ts
  | stmt ts us a as h _ ih =>
    by_cases hus : us = []
    · rw [hus, append_nil]
      exact h.endsApart
    · exact (ih hus).append ts

namespace Piece.Stands

variable {p : Piece} {before behind : List Char}

theorem written_ne_nil (h : p.Stands before behind) : p.written ≠ [] := by
  rcases h.writes with hw | ⟨-, hw, -⟩
  · rw [hw]
    exact fun heq => not_isLexeme_nil ⟨_, _, h.allows, heq⟩
  · rw [hw]
    exact cons_ne_nil _ _

/-- Nothing follows a string literal whose closing quote is missing. -/
theorem behind_eq_nil (h : p.Stands before behind) (hk : p.token.kind = .string) {rest : List Char}
    (hrest : p.written ++ behind = '"' :: rest) (hopen : '"' ∉ rest) : behind = [] := by
  rcases h.writes with hw | ⟨-, -, hw⟩
  · rw [hk, Token.Kind.written] at hw
    rw [hw, cons_append, cons.injEq] at hrest
    refine absurd ?_ hopen
    rw [← hrest.2]
    simp
  · exact hw

end Piece.Stands

theorem Token.scan_eq_append (source : String) :
    Token.scan source = (Token.scan source).takeWhile Parser.isBefore ++
      [⟨.endOfInput, "", .behind source.toList⟩] := by
  obtain ⟨ps, w, -, -, htokens, hps⟩ := exists_pieces source
  have hbefore : ∀ t ∈ ps.map Piece.token, Parser.isBefore t = true := by
    refine forall_mem_map.mpr fun p hp => decide_eq_true ?_
    obtain ⟨front, back, heq⟩ := append_of_mem hp
    exact (hps front p back heq).kind_ne
  rw [htokens, takeWhile_append_of_pos hbefore, takeWhile_cons_of_neg (by simp [Parser.isBefore]),
    append_nil]

/-- **A string literal that is not closed is the last token** before the end of the input. -/
theorem getLast?_of_leavesStringOpen {source : String} (h : LeavesStringOpen source) :
    ∃ t ∈ ((Token.scan source).takeWhile Parser.isBefore).getLast?, t.kind = .string := by
  obtain ⟨ps, w, hsource, -, htokens, hps⟩ := Token.exists_pieces source
  have hbefore : (Token.scan source).takeWhile Parser.isBefore = ps.map Piece.token :=
    append_cancel_right ((Token.scan_eq_append source).symm.trans htokens)
  obtain ⟨t, ht, hk, front, rest, hcut, hloc, hopen⟩ := h
  rw [htokens, mem_append, mem_map, mem_singleton] at ht
  rcases ht with ⟨p, hp, rfl⟩ | rfl
  · obtain ⟨before, back, rfl⟩ := append_of_mem hp
    have hstand := hps before p back rfl
    have hsplit : source.toList = (joined before ++ p.blanks) ++
        (p.written ++ (joined back ++ w)) := by
      rw [hsource]
      simp [joined, chars]
    -- the opening quote is where the piece of the token starts
    have hfront : joined before ++ p.blanks = front :=
      Loc.eq_of_behind_eq (hstand.loc.symm.trans hloc) ⟨_, hsplit.symm⟩ ⟨_, hcut.symm⟩
    have hnil : joined back ++ w = [] := by
      rw [hsplit, hfront] at hcut
      exact hstand.behind_eq_nil hk (append_cancel_left hcut) hopen
    obtain rfl : back = [] := by
      cases back with
      | nil => rfl
      | cons q back =>
        have hq := (hps (before ++ [p]) q back (by simp)).written_ne_nil
        simp [joined, chars, hq] at hnil
    exact ⟨p.token, by simp [hbefore], hk⟩
  · cases hk

/-! ## Sources -/

theorem compile_of_syntaxErrors {source : String} (h : (parse source).2 ≠ #[]) :
    compile source = .error ((parse source).2.toList.map .parsing) := by
  have hempty : ¬(parse source).2.isEmpty := by simpa using h
  rw [compile]
  exact if_neg hempty

/-- **Lexical errors never compile.** A source with an unknown character, or with a string literal
that is not closed, has at least one error, and all errors that are reported are errors of
syntax. -/
theorem compile_lexical_error {source : String}
    (h : (∃ t ∈ Token.scan source, t.kind = .unknown) ∨ LeavesStringOpen source) :
    ∃ es, compile source = .error es ∧ es ≠ [] ∧ ∀ d ∈ es, ∃ e, d = .parsing e := by
  have herrors : (parse source).2 ≠ #[] := by
    intro hparse
    have hderives := derivesItems_of_parse hparse
    rcases h with ⟨t, ht, hk⟩ | hopen
    · have hspell : AreSpelled ((Token.scan source).takeWhile Parser.isBefore) := fun t ht =>
        Token.scan_spelled source t ((List.takeWhile_sublist _).subset ht)
      rw [Token.scan_eq_append, List.mem_append, List.mem_singleton] at ht
      rcases ht with ht | rfl
      · exact hderives.known hspell t ht hk
      · cases hk
    · obtain ⟨t, ht, hk⟩ := getLast?_of_leavesStringOpen hopen
      obtain ⟨us, c, heq, hc⟩ := hderives.endsApart fun hnil => by rw [hnil] at ht; cases ht
      rw [heq, List.getLast?_concat] at ht
      cases ht
      rw [hk] at hc
      cases hc
  refine ⟨_, compile_of_syntaxErrors herrors, ?_, fun d hd => ?_⟩
  · simpa using herrors
  · obtain ⟨e, -, rfl⟩ := List.mem_map.mp hd
    exact ⟨e, rfl⟩

/-- A source with a stray character, and one with a string literal that is not closed. -/
def strayCharacter : String := "fn int main() \x7b return 1 @ 2; \x7d"

def openString : String := "fn int main() \x7b\n  printStr(\"a;\n\x7d"

theorem strayCharacter_lexical_error :
    ((∃ t ∈ Token.scan strayCharacter, t.kind = .unknown) ∧
      ∃ es, compile strayCharacter = .error es ∧ es ≠ [] ∧ ∀ d ∈ es, ∃ e, d = .parsing e) ∧
    LeavesStringOpen openString ∧ ∃ es, compile openString = .error es ∧ es ≠ [] ∧ ∀ d ∈ es, ∃ e,
      d = .parsing e := by
  have hstray : ∃ t ∈ Token.scan strayCharacter, t.kind = .unknown := by
    rw [Token.scan_ofList strayCharacter rfl]
    decide +kernel
  have hopen : LeavesStringOpen openString := by
    refine ⟨⟨.string, "a;\n\x7d", ⟨2, 12⟩⟩, by decide +kernel, rfl,
      "fn int main() \x7b\n  printStr(".toList, "a;\n\x7d".toList, ?_, ?_, ?_⟩
      <;> decide +kernel
  exact ⟨⟨hstray, compile_lexical_error (.inl hstray)⟩, hopen, compile_lexical_error (.inr hopen)⟩

end Stacklet
