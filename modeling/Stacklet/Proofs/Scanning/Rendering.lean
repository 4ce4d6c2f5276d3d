import Stacklet.Proofs.Scanning
/-!
# Texts of given tokens

* `Word`: a kind and a text of that kind. `Gap`: blanks between two words, at least one.
* `render`: a text that consists of words with gaps between them.
* `Lexeme.cutsOff_written`: a word is cut off a text as it is, if the end or a blank follows.
* **`Token.scan_render`**: the tokens of a rendered text are its words.
-/

namespace Stacklet

open Token (Kind)
open List

/-- A kind and a text that tokens of this kind may have. -/
structure Word where
  kind : Kind
  text : String
  allows : kind.Allows text.toList

/-- Blanks between two words. -/
structure Gap where
  chars : List Char
  ne_nil : chars ≠ []
  blank : ∀ c ∈ chars, isBlank c

def Word.written (x : Word) : List Char := x.kind.written x.text.toList

/-- The text of words with gaps between them. The gap behind the word with number `i` is `gap i`. -/
def render (gap : Nat → Gap) : (i : Nat) → List Word → List Char
  | _, [] => []
  | _, [x] => x.written
  | i, x :: y :: xs => x.written ++ ((gap i).chars ++ render gap (i + 1) (y :: xs))

/-! ## Words at the head of a text -/

/-- Nothing follows that could be a part of a word. -/
def Apart (rest : List Char) : Prop := ∀ c ∈ rest.head?, isBlank c

section Apart

variable {p : Char → Bool} {w rest : List Char}

theorem takeWhile_append_apart (hw : ∀ c ∈ w, p c) (hrest : Apart rest)
    (hp : ∀ c, isBlank c → ¬p c) :
    (w ++ rest).takeWhile p = w ∧ (w ++ rest).dropWhile p = rest :=
  takeWhile_append_of_head? hw fun c hc => hp c (hrest c hc)

end Apart

namespace Lexeme

variable {x rest : List Char}

theorem word_append (hx : isWord x) (hrest : Apart rest) :
    (word (x ++ rest)).text = String.ofList x ∧ (word (x ++ rest)).rest = rest ∧
      (word (x ++ rest)).kind = match Keyword.ofSpelling? (String.ofList x) with
        | some k => .keyword k
        | none => .name := by
  obtain _ | ⟨c, cs⟩ := x
  · cases hx
  obtain ⟨hc, hcs⟩ := isWord_cons_iff.mp hx
  have hchars : ∀ d ∈ c :: cs, isWordChar d :=
    forall_mem_cons.mpr ⟨isWordChar_iff.mpr (.inl hc), hcs⟩
  obtain ⟨htake, hdrop⟩ := takeWhile_append_apart hchars hrest fun _ => not_isWordChar_of_isBlank
  rw [word, htake, hdrop]
  exact ⟨rfl, rfl, rfl⟩

theorem fraction_of_apart (hrest : Apart rest) : fraction rest = [] := by
  unfold fraction
  split
  · exact absurd (hrest '.' rfl) (by decide)
  · rfl

theorem number_append (hx : IsNumeral x) (hrest : Apart rest) :
    (number (x ++ rest)).text = String.ofList x ∧ (number (x ++ rest)).rest = rest := by
  have hblank (c : Char) (hc : isBlank c) : ¬c.isDigit := fun h =>
    not_isWordChar_of_isBlank hc (isWordChar_iff.mpr (.inr h))
  rcases hx with hx | ⟨ds, es, rfl, hds, hes⟩
  · obtain ⟨htake, hdrop⟩ := takeWhile_append_apart (areDigits_iff.mp hx).2 hrest hblank
    rw [number, htake, hdrop, fraction_of_apart hrest, append_nil]
    exact ⟨rfl, rfl⟩
  · obtain ⟨hne, hes⟩ := areDigits_iff.mp hes
    obtain ⟨e, es, rfl⟩ := exists_cons_of_ne_nil hne
    obtain ⟨he, hes⟩ := forall_mem_cons.mp hes
    have hds := (areDigits_iff.mp hds).2
    obtain ⟨htake, -⟩ := takeWhile_append_apart hes hrest hblank
    have hpoint : ¬('.').isDigit := by decide
    have hfraction : fraction ('.' :: e :: (es ++ rest)) = '.' :: e :: es := by
      rw [fraction, if_pos he, htake]
    rw [number, append_assoc, cons_append, cons_append, takeWhile_append_of_pos hds,
      dropWhile_append_of_pos hds, takeWhile_cons_of_neg hpoint, dropWhile_cons_of_neg hpoint,
        hfraction]
    simp

theorem string_append (hx : '"' ∉ x) (rest : List Char) :
    (string (x ++ '"' :: rest)).text = String.ofList x ∧ (string (x ++ '"' :: rest)).rest =
      rest := by
  have hinside : ∀ c ∈ x, (c != '"') = true := fun c hc => bne_iff_ne.mpr fun h => hx (h ▸ hc)
  simp [string, takeWhile_append_of_pos hinside, dropWhile_append_of_pos hinside]

theorem ofHead?_append (s : Symbol) (hrest : Apart rest) :
    Symbol.ofHead? (s.chars ++ rest) = some s := by
  have hne (d : Char) (ds : List Char) (h : rest = d :: ds) : d ≠ '=' := by
    rintro rfl
    exact absurd (hrest '=' (by rw [h]; rfl)) (by decide)
  cases s with
  | assign | bang | lt | gt =>
    cases rest with
    | nil => rfl
    | cons d ds =>
      have := hne d ds rfl
      simp [Symbol.chars, Symbol.ofHead?, this]
  | _ => rfl

/-- A token with a kind and a text is cut off the text `cs`, and `rest` is left. -/
def CutsOff (k : Kind) (text : String) (cs rest : List Char) : Prop :=
  ∃ d ds, cs = d :: ds ∧ ¬isBlank d ∧ (ofHead d ds).kind = k ∧ (ofHead d ds).text = text ∧
    (ofHead d ds).rest = rest

theorem cutsOff_word {text : String} {k : Kind} (hx : isWord text.toList) (hrest : Apart rest)
    (hk : (match Keyword.ofSpelling? text with | some k => Kind.keyword k | none => .name) = k) :
    CutsOff k text (text.toList ++ rest) rest := by
  obtain ⟨htext, hrest, hkind⟩ := word_append hx hrest
  rw [String.ofList_toList] at htext hkind
  cases hcs : text.toList with
  | nil =>
    rw [hcs] at hx
    cases hx
  | cons c cs =>
    rw [hcs] at hx htext hrest hkind
    have hc := (isWord_cons_iff.mp hx).1
    have hword : ofHead c (cs ++ rest) = word (c :: cs ++ rest) := if_pos hc
    refine ⟨c, cs ++ rest, rfl, fun h => not_isWordChar_of_isBlank h (isWordChar_iff.mpr (.inl hc)),
      ?_⟩
    rw [hword]
    exact ⟨hkind.trans hk, htext, hrest⟩

theorem cutsOff_number {text : String} (hx : IsNumeral text.toList) (hrest : Apart rest) :
    CutsOff .number text (text.toList ++ rest) rest := by
  obtain ⟨htext, hrest⟩ := number_append hx hrest
  rw [String.ofList_toList] at htext
  cases hcs : text.toList with
  | nil =>
    rw [hcs] at hx
    exact absurd ⟨.number, [], hx, rfl⟩ not_isLexeme_nil
  | cons c cs =>
    rw [hcs] at hx htext hrest
    have hc := hx.head_isDigit
    have hnumber : ofHead c (cs ++ rest) = number (c :: cs ++ rest) := by
      rw [ofHead, if_neg (not_isLetter_of_isDigit hc), if_pos hc]
      rfl
    refine ⟨c, cs ++ rest, rfl, fun h => not_isWordChar_of_isBlank h (isWordChar_iff.mpr (.inr hc)),
      ?_⟩
    rw [hnumber]
    exact ⟨rfl, htext, hrest⟩

theorem cutsOff_string {text : String} (hx : '"' ∉ text.toList) (rest : List Char) :
    CutsOff .string text (Kind.written .string text.toList ++ rest) rest := by
  obtain ⟨htext, hrest⟩ := string_append hx rest
  rw [String.ofList_toList] at htext
  have hstring : ofHead '"' (text.toList ++ '"' :: rest) = string (text.toList ++ '"' :: rest) :=
    rfl
  refine ⟨'"', text.toList ++ '"' :: rest, by simp [Kind.written], by decide, ?_⟩
  rw [hstring]
  exact ⟨rfl, htext, hrest⟩

theorem ofHead_eq_sign {c : Char} (hword : ¬isWordChar c) (hquote : c ≠ '"') (cs : List Char) :
    ofHead c cs = sign c cs := by
  rw [isWordChar_iff, not_or] at hword
  rw [ofHead, if_neg hword.1, if_neg hword.2, if_neg hquote]

theorem cutsOff_symbol (s : Symbol) (hrest : Apart rest) :
    CutsOff (.symbol s) s.spelling (s.chars ++ rest) rest := by
  have hhead := ofHead?_append s hrest
  obtain ⟨c, cs, hcs⟩ := exists_cons_of_ne_nil (chars_ne_nil s)
  obtain ⟨hword, hblank, hquote⟩ := s.not_isWordChar (hcs ▸ mem_cons_self : c ∈ s.chars)
  rw [hcs, cons_append] at hhead ⊢
  refine ⟨c, cs ++ rest, rfl, hblank, ?_⟩
  rw [ofHead_eq_sign hword hquote, sign, hhead]
  exact ⟨rfl, rfl, by simp [hcs]⟩

theorem cutsOff_unknown {c : Char} (hc : IsStray c) (rest : List Char) :
    CutsOff .unknown (String.ofList [c]) (c :: rest) rest := by
  have hnone : Symbol.ofHead? (c :: rest) = none := by
    rw [Option.eq_none_iff_forall_ne_some]
    intro s hs
    obtain ⟨d, ds, hds⟩ := exists_cons_of_ne_nil (chars_ne_nil s)
    have hprefix := Symbol.chars_isPrefix hs
    rw [hds] at hprefix
    obtain ⟨rfl, -⟩ := cons_prefix_cons.mp hprefix
    exact hc.not_sign s (hds ▸ mem_cons_self)
  refine ⟨c, rest, rfl, hc.not_blank, ?_⟩
  rw [ofHead_eq_sign hc.not_word hc.not_quote, sign, hnone]
  exact ⟨rfl, rfl, rfl⟩

/-- **A word at the head of a text** is cut off as it is, if the end or a blank follows. -/
theorem cutsOff_written {k : Kind} {text : String} (hx : k.Allows text.toList)
    (hrest : Apart rest) :
    CutsOff k text (k.written text.toList ++ rest) rest := by
  cases k with
  | keyword k =>
    obtain rfl : text = k.spelling := String.toList_inj.mp hx
    exact cutsOff_word k.isWord_spelling hrest (by rw [Keyword.ofSpelling?_spelling])
  | name =>
    have hnone : Keyword.ofSpelling? text = none :=
      find?_eq_none.mpr fun k _ hk => hx.2 k (congrArg String.toList (eq_of_beq hk)).symm
    exact cutsOff_word hx.1 hrest (by rw [hnone])
  | number => exact cutsOff_number hx hrest
  | string => exact cutsOff_string hx rest
  | symbol s =>
    obtain rfl : text = s.spelling := String.toList_inj.mp (hx.trans String.toList_ofList.symm)
    have hwritten : (Kind.symbol s).written s.spelling.toList = s.chars := hx
    rw [hwritten]
    exact cutsOff_symbol s hrest
  | unknown =>
    obtain ⟨c, hc, hstray⟩ := hx
    obtain rfl : text = String.ofList [c] :=
      String.toList_inj.mp (hc.trans String.toList_ofList.symm)
    have hwritten : Kind.unknown.written (String.ofList [c]).toList = [c] := hc
    rw [hwritten]
    exact cutsOff_unknown hstray rest
  | endOfInput => cases hx

end Lexeme

/-! ## Rendered texts -/

def Token.content (t : Token) : Kind × String := (t.kind, t.text)

def Word.content (x : Word) : Kind × String := (x.kind, x.text)

theorem Cursor.tokens_written (x : Word) {bs rest : List Char} (hbs : ∀ b ∈ bs, isBlank b)
    (hrest : Apart rest) (loc : Loc) :
    ∃ loc', (tokens ⟨bs ++ (x.written ++ rest), loc⟩).map Token.content =
      x.content :: (tokens ⟨rest, loc'⟩).map Token.content := by
  obtain ⟨d, ds, hcut, hd, hkind, htext, hleft⟩ := Lexeme.cutsOff_written x.allows hrest
  refine ⟨(loc.after bs).after (Lexeme.ofHead d ds).written, ?_⟩
  rw [Word.written, hcut, tokens_of_head hbs hd, map_cons, Token.content, hkind, htext, hleft]
  rfl

theorem apart_append (g : Gap) (cs : List Char) : Apart (g.chars ++ cs) := by
  obtain ⟨d, ds, hgap⟩ := exists_cons_of_ne_nil g.ne_nil
  intro c hc
  rw [hgap] at hc
  cases hc
  exact g.blank d (hgap ▸ mem_cons_self)

theorem Cursor.tokens_render (gap : Nat → Gap) (xs : List Word) {bs : List Char}
    (hbs : ∀ b ∈ bs, isBlank b) (i : Nat) (loc : Loc) :
    (tokens ⟨bs ++ render gap i xs, loc⟩).map Token.content = xs.map Word.content ++
      [(.endOfInput, "")] := by
  induction xs generalizing bs i loc with
  | nil =>
    rw [render, append_nil, tokens_of_blank hbs]
    rfl
  | cons x xs ih =>
    cases xs with
    | nil =>
      have hend : Apart [] := fun c hc => nomatch hc
      obtain ⟨loc', htokens⟩ := tokens_written x hbs hend loc
      rw [append_nil] at htokens
      rw [render, htokens, tokens_of_blank (fun d hd => by cases hd)]
      rfl
    | cons y xs =>
      obtain ⟨loc', htokens⟩ :=
        tokens_written x hbs (apart_append (gap i) (render gap (i + 1) (y :: xs))) loc
      rw [render, htokens, ih (gap i).blank (i + 1) loc']
      rfl

/-- **Scanning undoes rendering.** The tokens of a text of words with gaps between them are these
words, and the end of the input. -/
theorem Token.scan_render (gap : Nat → Gap) (xs : List Word) :
    (Token.scan (String.ofList (render gap 0 xs))).map Token.content =
      xs.map Word.content ++ [(.endOfInput, "")] := by
  rw [Token.scan, Cursor.ofSource, String.toList_ofList]
  exact Cursor.tokens_render gap xs (List.forall_mem_nil _) 0 .start

end Stacklet
