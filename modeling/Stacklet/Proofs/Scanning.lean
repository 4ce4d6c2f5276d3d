import Mathlib.Data.List.Induction
import Mathlib.Data.List.TakeWhile
import Stacklet.Token.Scan
/-!
# Tokens and the text that they are cut from

* `Loc.behind`: the place behind a text, by counting. `Loc.after_behind`: moving over a text counts
  right.
* `Token.Kind.Allows`: the texts of tokens of each kind. `Token.Kind.written`: how such a token is
  written.
* `Lexeme.ofHead_allows`, `Lexeme.ofHead_writes`, `Lexeme.ofHead_maximal`: what is cut off the head
  of a text is the longest lexeme there.
* `Piece`: a token with the blanks before it. **`Token.scan_partition`**: a source text is made up
  of the pieces of its tokens, and of the blanks behind the last one.
-/

namespace Stacklet

open List

variable {c : Char} {cs w : List Char}

/-! ## Places -/

namespace Loc

/-- The place behind a text that stands at the start: one line more than it has line feeds, and one
column more than it has characters behind the last of these. -/
def behind (cs : List Char) : Loc :=
  ⟨1 + cs.count '\n', 1 + (cs.reverse.takeWhile (· != '\n')).length⟩

theorem next_behind (cs : List Char) (c : Char) : (behind cs).next c = behind (cs ++ [c]) := by
  unfold next behind
  rw [reverse_append, reverse_singleton, singleton_append, count_append]
  split
  · next h => simp [h]; omega
  · next h => simp [h]; omega

theorem after_behind (cs ds : List Char) : (behind cs).after ds = behind (cs ++ ds) := by
  induction ds generalizing cs with
  | nil => simp
  | cons d ds ih => rw [after_cons, next_behind, ih, append_assoc, singleton_append]

theorem line_add_col_behind_le (cs : List Char) :
    (behind cs).line + (behind cs).col ≤ cs.length + 2 := by
  induction cs using reverseRecOn with
  | nil => exact le_rfl
  | append_singleton cs c ih =>
    have hcol : 1 ≤ (behind cs).col := Nat.le_add_right ..
    rw [← next_behind, length_append, length_singleton]
    unfold next
    split <;> dsimp only <;> omega

theorem eq_of_behind_eq {ds front : List Char} (h : behind cs = behind front) (hcs : cs <+: ds)
    (hfront : front <+: ds) :
    cs = front := by
  have hstays {cs es : List Char} (h : behind (cs ++ es) = behind cs) : es = [] := by
    rw [behind, behind, Loc.mk.injEq, count_append] at h
    have hline : '\n' ∉ es := count_eq_zero.mp (by omega)
    have hes : ∀ c ∈ es.reverse, (c != '\n') = true := fun c hc =>
      bne_iff_ne.mpr fun heq => hline (heq ▸ mem_reverse.mp hc)
    have hcol := h.2
    rw [reverse_append, takeWhile_append_of_pos hes, length_append, length_reverse] at hcol
    exact eq_nil_of_length_eq_zero (by omega)
  rcases prefix_or_prefix_of_prefix hcs hfront with ⟨es, rfl⟩ | ⟨es, rfl⟩
  · rw [hstays h.symm, append_nil]
  · rw [hstays h, append_nil]

theorem behind_le_of_prefix {ds : List Char} (h : cs <+: ds) :
    (behind cs).line ≤ ds.length + 1 ∧ (behind cs).col ≤ ds.length + 1 := by
  have hsum := line_add_col_behind_le cs
  have hline : 1 ≤ (behind cs).line := Nat.le_add_right ..
  have hcol : 1 ≤ (behind cs).col := Nat.le_add_right ..
  have hlength := h.length_le
  omega

end Loc

/-! ## Forms of lexemes -/

/-- A letter, and letters and digits behind it. -/
def isWord : List Char → Bool
  | [] => false
  | c :: cs => isLetter c && cs.all isWordChar

/-- At least one digit, and nothing else. -/
def areDigits (cs : List Char) : Bool := !cs.isEmpty && cs.all Char.isDigit

/-- Digits, with or without a point and more digits. -/
def IsNumeral (cs : List Char) : Prop :=
  areDigits cs ∨ ∃ ds es, cs = ds ++ '.' :: es ∧ areDigits ds ∧ areDigits es

/-- A character that starts no lexeme of another kind and separates none. -/
structure IsStray (c : Char) : Prop where
  not_blank : ¬isBlank c
  not_word : ¬isWordChar c
  not_quote : c ≠ '"'
  not_sign : ∀ s : Symbol, c ∉ s.chars

namespace Token.Kind

/-- The texts that tokens of a kind may have. -/
def Allows : Kind → List Char → Prop
  | keyword k, x => x = k.spelling.toList
  | name, x => isWord x ∧ ∀ k : Keyword, x ≠ k.spelling.toList
  | number, x => IsNumeral x
  | string, x => '"' ∉ x
  | symbol s, x => x = s.chars
  | unknown, x => ∃ c, x = [c] ∧ IsStray c
  | endOfInput, _ => False

/-- How a token with the text `x` is written. -/
def written : Kind → List Char → List Char
  | string, x => '"' :: (x ++ ['"'])
  | _, x => x

end Token.Kind

/-- A text that some token is written as. -/
def IsLexeme (w : List Char) : Prop := ∃ k x, Token.Kind.Allows k x ∧ k.written x = w

/-- A token is written as `w`, with `rest` behind it: in quotes if it is a string literal. The
closing quote is missing only at the end. -/
def Token.Writes (t : Token) (w rest : List Char) : Prop :=
  w = t.kind.written t.text.toList ∨ t.kind = .string ∧ w = '"' :: t.text.toList ∧ rest = []

/-! ## Characters -/

section Characters

variable {c : Char}

theorem isLetter_iff : isLetter c ↔ (65 ≤ c.toNat ∧ c.toNat ≤ 90 ∨ 97 ≤ c.toNat ∧ c.toNat ≤ 122) ∨
    c = '_' := by
  have hletter : isLetter c =
    (decide (65 ≤ c.val ∧ c.val ≤ 90) || decide (97 ≤ c.val) && decide (c.val ≤ 122) ||
      c == '_') := rfl
  simp only [hletter, Bool.or_eq_true, Bool.and_eq_true, decide_eq_true_eq, UInt32.le_iff_toNat_le,
    beq_iff_eq]
  rfl

theorem isDigit_iff : c.isDigit ↔ 48 ≤ c.toNat ∧ c.toNat ≤ 57 := by
  simp only [Char.isDigit, Bool.and_eq_true, decide_eq_true_eq, ge_iff_le, UInt32.le_iff_toNat_le]
  rfl

theorem isWordChar_iff : isWordChar c ↔ isLetter c ∨ c.isDigit := Bool.or_eq_true_iff

theorem not_isLetter_of_isDigit (h : c.isDigit) : ¬isLetter c := by
  rw [isDigit_iff] at h
  rw [isLetter_iff]
  rintro (hrange | rfl)
  · omega
  · exact absurd h (by decide)

theorem takeWhile_append_of_head? {p : Char → Bool} {xs ys : List Char} (hxs : ∀ c ∈ xs, p c)
    (hys : ∀ c ∈ ys.head?, ¬p c) : (xs ++ ys).takeWhile p = xs ∧ (xs ++ ys).dropWhile p = ys := by
  rw [takeWhile_append_of_pos hxs, dropWhile_append_of_pos hxs]
  cases ys with
  | nil => simp
  | cons c ys => simp [hys c rfl]

theorem not_isWordChar_of_isBlank (h : isBlank c) : ¬isWordChar c := by
  obtain ⟨r, hr, h⟩ := any_eq_true.mp h
  rw [Bool.and_eq_true, decide_eq_true_eq, decide_eq_true_eq] at h
  have hranges : ∀ r ∈ blankRanges, r.2 ≤ 32 ∨ 133 ≤ r.1 := by decide
  have hrange : c.toNat ≤ 32 ∨ 133 ≤ c.toNat := (hranges r hr).imp h.2.trans fun hr => hr.trans h.1
  rw [isWordChar_iff, isLetter_iff, isDigit_iff]
  rintro ((h | rfl) | h)
  · omega
  · exact absurd hrange (by decide)
  · omega

end Characters

namespace Symbol

variable {s s' : Symbol} {c : Char} {cs : List Char}

theorem not_isWordChar (h : c ∈ s.chars) : ¬isWordChar c ∧ ¬isBlank c ∧ c ≠ '"' := by
  have hall : s.chars.all fun c => !isWordChar c && !isBlank c && c != '"' := by cases s <;> decide
  simpa [and_assoc] using all_eq_true.mp hall c h

theorem ofHead?_ne_none (h : c ∈ s.chars) (cs : List Char) : ofHead? (c :: cs) ≠ none := by
  -- behind these the next character decides
  have hlong (hc : c ∈ ['=', '!', '<', '>']) : ofHead? (c :: cs) ≠ none := by
    simp only [mem_cons, not_mem_nil, or_false] at hc
    rcases hc with rfl | rfl | rfl | rfl <;> cases cs with
    | nil => exact Option.some_ne_none _
    | cons d cs => by_cases hd : d = '=' <;> simp [ofHead?, hd]
  cases s with
  | assign | eq | bang | ne | lt | le | gt | ge =>
    exact hlong (by revert h; simp +contextual [chars, or_imp])
  | _ =>
    cases mem_singleton.mp h
    exact Option.some_ne_none _

theorem chars_isPrefix (h : ofHead? cs = some s) : s.chars <+: cs := by
  unfold ofHead? at h
  split at h <;> cases h <;> simp [chars]

theorem length_chars_le (h : ofHead? cs = some s) (h' : s'.chars <+: cs) :
    s'.chars.length ≤ s.chars.length := by
  have hpos : 0 < s.chars.length := length_pos_iff.mpr (Lexeme.chars_ne_nil s)
  obtain ⟨rest, rfl⟩ := h'
  cases s' with
  | eq | ne | le | ge => cases h; exact le_rfl
  | _ => exact hpos

end Symbol

/-! ## The lexeme at the head of a text -/

theorem isWord_cons_iff : isWord (c :: cs) ↔ isLetter c ∧ ∀ d ∈ cs, isWordChar d := by
  rw [isWord, Bool.and_eq_true, all_eq_true]

theorem areDigits_iff : areDigits cs ↔ cs ≠ [] ∧ ∀ d ∈ cs, d.isDigit := by
  simp [areDigits]

theorem Keyword.isWord_spelling (k : Keyword) : isWord k.spelling.toList := by cases k <;> decide

theorem Keyword.ofSpelling?_spelling (k : Keyword) :
    ofSpelling? k.spelling = some k := by cases k <;> decide

theorem IsNumeral.head_isDigit (h : IsNumeral (c :: cs)) : c.isDigit := by
  rcases h with h | ⟨ds, es, heq, hds, -⟩
  · exact (areDigits_iff.mp h).2 c mem_cons_self
  · obtain ⟨hne, hds⟩ := areDigits_iff.mp hds
    obtain ⟨d, ds, rfl⟩ := exists_cons_of_ne_nil hne
    cases heq
    exact hds c mem_cons_self

/-- The first character of a lexeme tells its form. -/
theorem IsLexeme.of_cons (h : IsLexeme (c :: cs)) :
    isLetter c ∧ isWord (c :: cs) ∨ c.isDigit ∧ IsNumeral (c :: cs) ∨ c = '"' ∧
    (∃ x, '"' ∉ x ∧ cs = x ++ ['"']) ∨
      ¬isWordChar c ∧ c ≠ '"' ∧ ((∃ s : Symbol, c :: cs = s.chars) ∨ cs = []) := by
  obtain ⟨k, x, hx, heq⟩ := h
  have hword (h : isWord (c :: cs)) : isLetter c ∧ isWord (c :: cs) := ⟨(isWord_cons_iff.mp h).1, h⟩
  cases k with
  | keyword k =>
    obtain rfl : x = c :: cs := heq
    exact .inl (hword (hx ▸ k.isWord_spelling))
  | name =>
    obtain rfl : x = c :: cs := heq
    exact .inl (hword hx.1)
  | number =>
    obtain rfl : x = c :: cs := heq
    exact .inr (.inl ⟨hx.head_isDigit, hx⟩)
  | string =>
    obtain ⟨rfl, rfl⟩ := cons.inj heq
    exact .inr (.inr (.inl ⟨rfl, x, hx, rfl⟩))
  | symbol s =>
    obtain rfl : x = c :: cs := heq
    obtain ⟨hword, -, hquote⟩ := s.not_isWordChar (hx ▸ mem_cons_self : c ∈ s.chars)
    exact .inr (.inr (.inr ⟨hword, hquote, .inl ⟨s, hx⟩⟩))
  | unknown =>
    obtain ⟨d, rfl, hd⟩ := hx
    obtain ⟨rfl, rfl⟩ := cons.inj heq
    exact .inr (.inr (.inr ⟨hd.not_word, hd.not_quote, .inr rfl⟩))
  | endOfInput => cases hx

theorem not_isLexeme_nil : ¬IsLexeme [] := by
  rintro ⟨k, x, hx, heq⟩
  cases k with
  | keyword k =>
    obtain rfl : x = [] := heq
    exact absurd k.isWord_spelling (hx ▸ Bool.false_ne_true)
  | name =>
    obtain rfl : x = [] := heq
    exact absurd hx.1 Bool.false_ne_true
  | number =>
    obtain rfl : x = [] := heq
    rcases hx with h | ⟨ds, es, heq, -⟩
    · exact absurd h Bool.false_ne_true
    · exact absurd heq.symm (append_ne_nil_of_right_ne_nil _ (cons_ne_nil _ _))
  | string => cases heq
  | symbol s =>
    obtain rfl : x = [] := heq
    exact Lexeme.chars_ne_nil s hx.symm
  | unknown =>
    obtain ⟨c, rfl, -⟩ := hx
    cases heq
  | endOfInput => cases hx

theorem length_le_takeWhile {α : Type} {p : α → Bool} {w l : List α} (h : w <+: l)
    (hw : ∀ a ∈ w, p a) :
    w.length ≤ (l.takeWhile p).length := by
  obtain ⟨rest, rfl⟩ := h
  rw [takeWhile_append_of_pos hw, length_append]
  exact Nat.le_add_right ..

namespace Lexeme

variable {c : Char} {cs : List Char}

theorem fraction_isPrefix (cs : List Char) : fraction cs <+: cs := by
  unfold fraction
  split
  · split
    · exact cons_prefix_cons.mpr ⟨rfl, cons_prefix_cons.mpr ⟨rfl, takeWhile_prefix _⟩⟩
    · exact nil_prefix
  · exact nil_prefix

theorem written_append_rest (c : Char) (cs : List Char) :
    (ofHead c cs).written ++ (ofHead c cs).rest = c :: cs := by
  unfold ofHead
  split
  · exact takeWhile_append_dropWhile
  · split
    · dsimp only [number]
      rw [append_assoc, prefix_iff_eq_append.mp (fraction_isPrefix _)]
      exact takeWhile_append_dropWhile
    · split
      · next hc =>
        dsimp only [string]
        rw [hc, cons_append, append_assoc, take_append_drop, takeWhile_append_dropWhile]
      · unfold sign
        split
        · next hs => exact prefix_iff_eq_append.mp (Symbol.chars_isPrefix hs)
        · rfl

theorem isWord_takeWhile (h : isLetter c) (cs : List Char) :
    isWord ((c :: cs).takeWhile isWordChar) := by
  rw [takeWhile_cons_of_pos (isWordChar_iff.mpr (.inl h))]
  exact isWord_cons_iff.mpr ⟨h, fun d hd => mem_takeWhile_imp hd⟩

theorem isNumeral_number (h : c.isDigit) (cs : List Char) :
    IsNumeral (number (c :: cs)).written := by
  have hdigits (d : Char) (ds : List Char) (hd : d.isDigit) :
      areDigits (d :: ds.takeWhile Char.isDigit) :=
    areDigits_iff.mpr ⟨cons_ne_nil _ _, forall_mem_cons.mpr ⟨hd, fun e he => mem_takeWhile_imp he⟩⟩
  dsimp only [number]
  rw [takeWhile_cons_of_pos h]
  unfold fraction
  split
  · split
    · next hd => exact .inr ⟨_, _, rfl, hdigits _ _ h, hdigits _ _ hd⟩
    · rw [append_nil]
      exact .inl (hdigits _ _ h)
  · rw [append_nil]
    exact .inl (hdigits _ _ h)

theorem ofHead_allows (h : ¬isBlank c) (cs : List Char) :
    (ofHead c cs).kind.Allows (ofHead c cs).text.toList := by
  unfold ofHead
  split
  · next hletter =>
    dsimp only [word]
    rw [String.toList_ofList]
    split
    · next k hk =>
      have hspell := find?_some (p := fun k : Keyword => k.spelling == _) hk
      rw [Token.Kind.Allows, eq_of_beq hspell, String.toList_ofList]
    · next hnone =>
      refine ⟨isWord_takeWhile hletter cs, fun k heq => ?_⟩
      refine find?_eq_none.mp hnone k k.mem_all ?_
      rw [heq, String.ofList_toList]
      exact beq_self_eq_true _
  · next hletter =>
    split
    · next hdigit =>
      rw [number, String.toList_ofList]
      exact isNumeral_number hdigit cs
    · next hdigit =>
      split
      · rw [string, String.toList_ofList]
        intro hmem
        exact absurd (mem_takeWhile_imp hmem) (by simp)
      · next hquote =>
        unfold sign
        split
        · rw [Symbol.spelling, String.toList_ofList]
          rfl
        · next hnone =>
          refine ⟨c, String.toList_ofList, h, ?_, hquote,
            fun s hs => Symbol.ofHead?_ne_none hs cs hnone⟩
          rw [isWordChar_iff]
          exact not_or.mpr ⟨hletter, hdigit⟩

theorem ofHead_writes (c : Char) (cs : List Char) (loc : Loc) :
    Token.Writes ⟨(ofHead c cs).kind, (ofHead c cs).text, loc⟩ (ofHead c cs).written
      (ofHead c cs).rest := by
  have hplain {k : Token.Kind} {x : List Char} (hk : k.written x = x) (rest : List Char) :
      Token.Writes ⟨k, String.ofList x, loc⟩ x rest := .inl (by rw [String.toList_ofList, hk])
  unfold ofHead
  split
  · dsimp only [word]
    split <;> exact hplain rfl _
  · split
    · exact hplain rfl _
    · split
      · dsimp only [string]
        cases hbehind : cs.dropWhile (· != '"') with
        | nil => exact .inr ⟨rfl, by simp, rfl⟩
        | cons d ds =>
          have hquote :=
            head_dropWhile_not (· != '"') (l := cs) (by rw [hbehind]; exact cons_ne_nil _ _)
          simp only [hbehind, head_cons, bne_eq_false_iff_eq] at hquote
          exact .inl (by simp [Token.Kind.written, hquote])
      · unfold sign
        split <;> exact hplain rfl _

theorem length_number_of_prefix (hw : IsNumeral w) (hp : w <+: cs) :
    w.length ≤ (number cs).written.length := by
  dsimp only [number]
  rw [length_append]
  rcases hw with hw | ⟨ds, es, rfl, hds, hes⟩
  · exact (length_le_takeWhile hp (areDigits_iff.mp hw).2).trans (Nat.le_add_right ..)
  · obtain ⟨rest, rfl⟩ := hp
    obtain ⟨hne, hes⟩ := areDigits_iff.mp hes
    obtain ⟨e, es, rfl⟩ := exists_cons_of_ne_nil hne
    obtain ⟨he, hes⟩ := forall_mem_cons.mp hes
    have hds := (areDigits_iff.mp hds).2
    rw [append_assoc, takeWhile_append_of_pos hds, dropWhile_append_of_pos hds]
    simp [fraction, he, takeWhile_append_of_pos hes]

/-- **No longer lexeme stands at the head of a text** than the one that is cut off. -/
theorem ofHead_longest (hw : IsLexeme w) (hp : w <+: c :: cs) :
    w.length ≤ (ofHead c cs).written.length := by
  rcases prefix_cons_iff.mp hp with rfl | ⟨w, rfl, htail⟩
  · exact absurd hw not_isLexeme_nil
  have hform := hw.of_cons
  have hquote : ¬isWordChar '"' := by decide
  unfold ofHead
  split
  · next hletter =>
    have hword : isWord (c :: w) := by grind [not_isLetter_of_isDigit, isWordChar_iff]
    have hchars := isWord_cons_iff.mp hword
    exact length_le_takeWhile hp (forall_mem_cons.mpr ⟨isWordChar_iff.mpr (.inl hletter), hchars.2⟩)
  · next hletter =>
    split
    · next hdigit =>
      have hnumeral : IsNumeral (c :: w) := by grind [isWordChar_iff]
      exact length_number_of_prefix hnumeral hp
    · next hdigit =>
      split
      · next hc =>
        obtain ⟨x, hx, rfl⟩ : ∃ x, '"' ∉ x ∧ w = x ++ ['"'] := by grind
        obtain ⟨rest, rfl⟩ := htail
        have hinside : ∀ d ∈ x, (d != '"') = true := fun d hd => bne_iff_ne.mpr fun h => hx (h ▸ hd)
        simp [string, takeWhile_append_of_pos hinside, dropWhile_append_of_pos hinside]
      · next hc =>
        have hsign : (∃ s : Symbol, c :: w = s.chars) ∨ w = [] := by grind [isWordChar_iff]
        unfold sign
        rcases hsign with ⟨s, hs⟩ | rfl
        · rw [hs] at hp ⊢
          split
          · next hsome => exact Symbol.length_chars_le hsome hp
          · next hnone =>
              exact absurd hnone (Symbol.ofHead?_ne_none (hs ▸ mem_cons_self : c ∈ s.chars) cs)
        · split
          · next s _ => exact length_pos_iff.mpr (chars_ne_nil s)
          · exact le_rfl

end Lexeme

/-! ## Pieces of a text -/

/-- A token where it stands in a text: the blanks before it, and how it is written. -/
structure Piece where
  blanks : List Char
  written : List Char
  token : Token

namespace Piece

def chars (p : Piece) : List Char := p.blanks ++ p.written

def joined (ps : List Piece) : List Char := ps.flatMap chars

/-- A piece stands between two texts: its token is written there, at the place behind what stands
before it, and no longer lexeme starts there. -/
structure Stands (p : Piece) (before behind : List Char) : Prop where
  blank : ∀ c ∈ p.blanks, isBlank c
  allows : p.token.kind.Allows p.token.text.toList
  writes : p.token.Writes p.written behind
  loc : p.token.loc = .behind (before ++ p.blanks)
  maximal : ∀ more, more ≠ [] → more <+: behind → ¬IsLexeme (p.written ++ more)

end Piece

open Piece

theorem Lexeme.ofHead_maximal {more : List Char} (hmore : more ≠ [])
    (hp : more <+: (ofHead c cs).rest) :
    ¬IsLexeme ((ofHead c cs).written ++ more) := by
  intro h
  have hprefix : (ofHead c cs).written ++ more <+: c :: cs := by
    rw [← written_append_rest c cs]
    exact (prefix_append_right_inj _).mpr hp
  have hle := ofHead_longest h hprefix
  have hpos := length_pos_iff.mpr hmore
  rw [length_append] at hle
  omega

/-! ## Tokens behind a cursor -/

namespace Cursor

theorem tokens_of_blank (hw : ∀ d ∈ w, isBlank d) (loc : Loc) :
    tokens ⟨w, loc⟩ = [⟨.endOfInput, "", loc.after w⟩] := by
  have hscan : scan ⟨w, loc⟩ = (⟨.endOfInput, "", loc.after w⟩, ⟨[], loc.after w⟩) := by
    simp only [scan, skipBlanks, dropWhile_eq_nil_iff.mpr hw, takeWhile_eq_self_iff.mpr hw]
  rw [tokens, hscan]
  rfl

theorem tokens_of_head {bs : List Char} {d : Char} (hbs : ∀ b ∈ bs, isBlank b) (hd : ¬isBlank d)
    (ds : List Char) (loc : Loc) :
    tokens ⟨bs ++ d :: ds, loc⟩ =
      ⟨(Lexeme.ofHead d ds).kind, (Lexeme.ofHead d ds).text, loc.after bs⟩ ::
      tokens ⟨(Lexeme.ofHead d ds).rest, (loc.after bs).after (Lexeme.ofHead d ds).written⟩ := by
  have hscan : scan ⟨bs ++ d :: ds, loc⟩ =
    (⟨(Lexeme.ofHead d ds).kind, (Lexeme.ofHead d ds).text, loc.after bs⟩,
      ⟨(Lexeme.ofHead d ds).rest, (loc.after bs).after (Lexeme.ofHead d ds).written⟩) := by
    simp only [scan, skipBlanks, dropWhile_append_of_pos hbs, dropWhile_cons_of_neg hd,
      takeWhile_append_of_pos hbs, takeWhile_cons_of_neg hd, append_nil]
  rw [tokens, hscan, dif_neg (Lexeme.ofHead_kind_ne d ds)]

end Cursor

theorem blank_or_exists_head (cs : List Char) :
    (∀ c ∈ cs, isBlank c) ∨ ∃ bs d ds, cs = bs ++ d :: ds ∧ (∀ b ∈ bs, isBlank b) ∧ ¬isBlank d := by
  cases h : cs.dropWhile isBlank with
  | nil => exact .inl (dropWhile_eq_nil_iff.mp h)
  | cons d ds =>
    have hd := head_dropWhile_not isBlank (l := cs) (by rw [h]; exact cons_ne_nil _ _)
    simp only [h, head_cons] at hd
    refine .inr ⟨cs.takeWhile isBlank, d, ds, ?_, fun b hb => mem_takeWhile_imp hb, by simp [hd]⟩
    rw [← h, takeWhile_append_dropWhile]

/-- **The text behind a cursor** is made up of the pieces of the tokens there, and of the blanks
behind the last one. -/
theorem Cursor.exists_pieces (before cs : List Char) :
    ∃ ps w, cs = joined ps ++ w ∧ (∀ d ∈ w, isBlank d) ∧
      tokens ⟨cs, .behind before⟩ =
        ps.map Piece.token ++ [Token.mk .endOfInput "" (.behind (before ++ cs))] ∧
      ∀ front p back, ps = front ++ p :: back →
      p.Stands (before ++ joined front) (joined back ++ w) := by
  -- each lexeme leaves a shorter text
  induction hn : cs.length using Nat.strong_induction_on generalizing before cs with
  | _ n ih =>
  subst hn
  rcases blank_or_exists_head cs with hblank | ⟨bs, d, ds, rfl, hbs, hd⟩
  · refine ⟨[], cs, rfl, hblank, ?_, fun front p back h => ?_⟩
    · rw [tokens_of_blank hblank, Loc.after_behind]
      rfl
    · cases front <;> cases h
  · have hshorter : (Lexeme.ofHead d ds).rest.length < (bs ++ d :: ds).length := by
      have := Lexeme.length_rest_ofHead_lt d ds
      rw [length_append]
      omega
    have hcut : bs ++ d :: ds = bs ++ (Lexeme.ofHead d ds).written ++
        (Lexeme.ofHead d ds).rest := by
      rw [append_assoc, Lexeme.written_append_rest]
    obtain ⟨ps, w, hrest, hw, htokens, hps⟩ :=
      ih _ hshorter (before ++ bs ++ (Lexeme.ofHead d ds).written) (Lexeme.ofHead d ds).rest rfl
    let first : Piece := ⟨bs, (Lexeme.ofHead d ds).written,
      ⟨(Lexeme.ofHead d ds).kind, (Lexeme.ofHead d ds).text, .behind (before ++ bs)⟩⟩
    refine ⟨first :: ps, w, ?_, hw, ?_, fun front p back h => ?_⟩
    · rw [hcut, hrest]
      simp [joined, first, chars]
    · rw [tokens_of_head hbs hd, Loc.after_behind, Loc.after_behind, htokens, hcut]
      simp [first]
    · cases front with
      | nil =>
        obtain ⟨rfl, rfl⟩ := cons.inj h
        rw [← hrest]
        exact ⟨hbs, Lexeme.ofHead_allows hd ds, Lexeme.ofHead_writes d ds
          _, by simp [joined, first], fun more hmore hp => Lexeme.ofHead_maximal hmore hp⟩
      | cons q front =>
        obtain ⟨rfl, rfl⟩ := cons.inj h
        have hstands := hps front p back rfl
        simpa [joined, first, chars] using hstands

theorem Token.exists_pieces (source : String) :
    ∃ ps w, source.toList = joined ps ++ w ∧ (∀ c ∈ w, isBlank c) ∧
      Token.scan source = ps.map Piece.token ++ [⟨.endOfInput, "", .behind source.toList⟩] ∧
      ∀ front p back, ps = front ++ p :: back → p.Stands (joined front) (joined back ++ w) :=
  Cursor.exists_pieces [] source.toList

theorem Piece.Stands.kind_ne {p : Piece} {before behind : List Char} (h : p.Stands before behind) :
    p.token.kind ≠ .endOfInput :=
  fun hend => (hend ▸ h.allows : Token.Kind.Allows .endOfInput _)

/-- **Tokens partition a source text.** The text is made up of the pieces of its tokens, each with
the blanks before it, and of blanks behind the last one. The last token, and no other, is the end of
the input, and it stands at the end of the text. Lines and columns are not greater than the number
of characters tells. -/
theorem Token.scan_partition (source : String) :
    ∃ ps w, source.toList = joined ps ++ w ∧ (∀ c ∈ w, isBlank c) ∧
      Token.scan source = ps.map Piece.token ++ [⟨.endOfInput, "", .behind source.toList⟩] ∧
      (∀ p ∈ ps, p.token.kind ≠ .endOfInput) ∧
      (∀ front p back, ps = front ++ p :: back → p.Stands (joined front) (joined back ++ w)) ∧
      ∀ t ∈ Token.scan source, t.loc.line ≤ source.length + 1 ∧ t.loc.col ≤ source.length + 1 := by
  obtain ⟨ps, w, hsource, hw, htokens, hps⟩ := exists_pieces source
  have hstands (p : Piece) (hp : p ∈ ps) : ∃ front back, ps = front ++ p :: back ∧
      p.Stands (joined front) (joined back ++ w) := by
    obtain ⟨front, back, heq⟩ := List.append_of_mem hp
    exact ⟨front, back, heq, hps front p back heq⟩
  refine ⟨ps, w, hsource, hw, htokens, fun p hp hend => ?_, hps, fun t ht => ?_⟩
  · obtain ⟨front, back, -, hstand⟩ := hstands p hp
    exact hstand.kind_ne hend
  · rw [← String.length_toList]
    rw [htokens, List.mem_append, List.mem_map, List.mem_singleton] at ht
    rcases ht with ⟨p, hp, rfl⟩ | rfl
    · obtain ⟨front, back, rfl, hstand⟩ := hstands p hp
      rw [hstand.loc]
      refine Loc.behind_le_of_prefix ⟨p.written ++ joined back ++ w, ?_⟩
      rw [hsource]
      simp [joined, chars]
    · exact Loc.behind_le_of_prefix List.prefix_rfl

end Stacklet
