import Mathlib.Algebra.Ring.Int.Defs
import Stacklet.Machine.Value
import Stacklet.Number.General
import Stacklet.Proofs.Emission.Forms
import Stacklet.Proofs.Scanning
/-!
# Integers as text

* `Number.Leading`: what a text starts with: blanks, a sign, digits. Every text is divided so.
* `Number.Leading.toInt_leadingInt`: the integer that is read from a text is the one that these
  digits stand for, if it has 64 bits, and zero otherwise.
* **`Number.leadingInt_reads`**: so numerals are read back, whatever is behind them, and literals
  are read as texts are.
* **`BinOp.trichotomy_int`**: comparisons of integers agree with each other, although equality is
  one of texts.
-/

namespace Stacklet

namespace Number

theorem digitsValue_digits (n : Nat) : digitsValue (digits n) = n := Nat.ofDigitChars_ten_toDigits

theorem isDigit_of_mem_digits {c : Char} {n : Nat} (h : c ∈ digits n) : c.isDigit :=
  Nat.isDigit_of_mem_toDigits (by decide) (by decide) h

/-- Blanks, a sign or none, and digits, each as far as they go, with the rest of a text behind
them. -/
structure Leading where
  blanks : List Char
  sign : List Char
  digits : List Char
  rest : List Char
  isBlank : ∀ c ∈ blanks, isBlank c
  isSign : sign = [] ∨ sign = ['+'] ∨ sign = ['-']
  isDigit : ∀ c ∈ digits, c.isDigit
  behind_blanks : ∀ c ∈ (sign ++ (digits ++ rest)).head?, ¬Stacklet.isBlank c
  behind_sign : sign = [] → ∀ c ∈ (digits ++ rest).head?, c ≠ '+' ∧ c ≠ '-'
  behind_digits : ∀ c ∈ rest.head?, ¬c.isDigit

namespace Leading

/-- The whole text. -/
def chars (l : Leading) : List Char := l.blanks ++ (l.sign ++ (l.digits ++ l.rest))

/-- The integer that the digits stand for behind the sign. -/
def value (l : Leading) : Int :=
  if l.sign = ['-'] then -(digitsValue l.digits : Int) else digitsValue l.digits

/-- There are digits, and what they stand for has 64 bits. -/
def Fits (l : Leading) : Prop := l.digits ≠ [] ∧ -2 ^ 63 ≤ l.value ∧ l.value ≤ 2 ^ 63 - 1

instance (l : Leading) : Decidable l.Fits := inferInstanceAs (Decidable (_ ∧ _))

theorem exists_chars_eq (cs : List Char) : ∃ l : Leading, l.chars = cs := by
  have hhead {p : Char → Bool} {xs : List Char} : ∀ c ∈ (xs.dropWhile p).head?, ¬p c := by
    intro c hc
    have h := List.head?_dropWhile_not p xs
    rw [Option.mem_def.mp hc] at h
    simpa using h
  obtain ⟨sign, ds, hcs, hsign, hbehind⟩ : ∃ sign ds, cs.dropWhile Stacklet.isBlank = sign ++ ds ∧
      (sign = [] ∨ sign = ['+'] ∨ sign = ['-']) ∧
          (sign = [] → ∀ c ∈ ds.head?, c ≠ '+' ∧ c ≠ '-') := by
    cases cs.dropWhile Stacklet.isBlank with
    | nil => exact ⟨[], [], rfl, .inl rfl, by simp⟩
    | cons c ds =>
      by_cases hc : c = '+' ∨ c = '-'
      · exact ⟨[c], ds, rfl, .inr (by simpa using hc), by simp⟩
      · exact ⟨[], c :: ds, rfl, .inl rfl, by simpa using hc⟩
  have hds : ds.takeWhile Char.isDigit ++ ds.dropWhile Char.isDigit = ds :=
    List.takeWhile_append_dropWhile
  refine ⟨⟨cs.takeWhile Stacklet.isBlank, sign, ds.takeWhile Char.isDigit,
    ds.dropWhile Char.isDigit,
    fun _ => List.mem_takeWhile_imp, hsign, fun _ => List.mem_takeWhile_imp, ?_, ?_, hhead⟩, ?_⟩
  · rw [hds, ← hcs]
    exact hhead
  · rwa [hds]
  · calc cs.takeWhile Stacklet.isBlank ++
      (sign ++ (ds.takeWhile Char.isDigit ++ ds.dropWhile Char.isDigit))
      _ = cs.takeWhile Stacklet.isBlank ++ cs.dropWhile Stacklet.isBlank := by rw [hds, hcs]
      _ = cs := List.takeWhile_append_dropWhile

/-- Digits behind a sign or none, at the start of a text. -/
def ofDigits (sign ds rest : List Char) (hsign : sign = [] ∨ sign = ['+'] ∨ sign = ['-'])
    (hne : ds ≠ []) (hds : ∀ c ∈ ds, c.isDigit) (hrest : ∀ c ∈ rest.head?, ¬c.isDigit) : Leading :=
  have hhead : ∀ c ∈ (ds ++ rest).head?, c.isDigit := by
    intro c hc
    rw [List.head?_append_of_ne_nil _ hne] at hc
    exact hds c (List.mem_of_mem_head? hc)
  { blanks := [], sign, digits := ds, rest, isSign := hsign, isDigit := hds, behind_digits := hrest
    isBlank := by simp
    behind_blanks := by
      rcases hsign with rfl | rfl | rfl
      · intro c hc hblank
        exact not_isWordChar_of_isBlank hblank (by simp [isWordChar, hhead c hc])
      all_goals simp [Stacklet.isBlank, blankRanges]
    behind_sign := fun _ c hc => by
      constructor <;> rintro rfl <;> exact absurd (hhead _ hc) (by decide) }

variable (l : Leading)

theorem intHead_trimStart : intHead (trimStart l.chars) = l.sign ++ l.digits := by
  have hdigits := (takeWhile_append_of_head? l.isDigit l.behind_digits).1
  rw [trimStart, chars, (takeWhile_append_of_head? l.isBlank l.behind_blanks).2]
  rcases l.isSign with h | h | h
  · rw [h, List.nil_append, intHead]
    · exact hdigits
    · intro ds h'
      exact (l.behind_sign h '-' (by simp [h'])).2 rfl
    · intro ds h'
      exact (l.behind_sign h '+' (by simp [h'])).1 rfl
  all_goals simp [h, intHead, hdigits]

theorem splitSign_head : splitSign (l.sign ++ l.digits) = (decide (l.sign = ['-']), l.digits) := by
  rcases l.isSign with h | h | h
  · rw [h, List.nil_append, splitSign]
    · simp
    · intro ds h'
      exact absurd (l.isDigit '-' (by simp [h'])) (by decide)
    · intro ds h'
      exact absurd (l.isDigit '+' (by simp [h'])) (by decide)
  all_goals simp [h, splitSign]

/-- Digits are read up to a bound. With a sign or without, it does not fit into 64 bits. -/
theorem readInt?_head : readInt? (l.sign ++ l.digits) = if l.Fits then some (Int64.ofInt l.value)
      else none := by
  have hall : l.digits.all Char.isDigit := List.all_eq_true.mpr l.isDigit
  have hmin : Int64.minValue.toInt = -2 ^ 63 := by decide
  have hmax : Int64.maxValue.toInt = 2 ^ 63 - 1 := by decide
  have hsize : UInt64.size = 2 ^ 64 := rfl
  rw [readInt?, l.splitSign_head]
  simp only [hall, Bool.not_true, Bool.or_false, List.isEmpty_iff, boundedValue_eq_min,
    decide_eq_true_eq, hmin, hmax, hsize]
  by_cases hds : l.digits = []
  · simp [hds, Fits]
  · rcases Nat.le_total (digitsValue l.digits) (2 ^ 64) with h | h
    · rw [Nat.min_eq_right h, if_neg hds]
      show (if -2 ^ 63 ≤ l.value ∧ l.value ≤ 2 ^ 63 - 1 then some (Int64.ofInt l.value) else none) =
        _
      simp only [Fits, hds, ne_eq, not_false_eq_true, true_and]
    · have hfits : ¬l.Fits := by
        unfold Fits value
        split <;> omega
      rw [Nat.min_eq_left h, if_neg hds, if_neg hfits, if_neg]
      split <;> omega

/-- **The integer that a text starts with.** -/
theorem toInt_leadingInt {s : String} (h : l.chars = s.toList) :
    (leadingInt s).toInt = if l.Fits then l.value else 0 := by
  rw [leadingInt, ← h, l.intHead_trimStart, l.readInt?_head]
  split
  · next hfits =>
      exact Int64.toInt_ofInt_of_le (by have := hfits.2; omega) (by have := hfits.2; omega)
  · rfl

end Leading

/-! ## Numerals -/

theorem toList_decimal (i : Int) : (decimal i).toList = withSign (i < 0) (digits i.natAbs) := by
  cases i with
  | ofNat k => simp [decimal, withSign]
  | negSucc k => simp [decimal, withSign, Int.negSucc_lt_zero]

/-- The numeral of an integer at the start of a text. -/
def Leading.ofInt (i : Int) (rest : List Char) (hrest : ∀ c ∈ rest.head?, ¬c.isDigit) : Leading :=
  ofDigits (if i < 0 then ['-'] else []) (Number.digits i.natAbs) rest (by split <;> simp)
    Nat.toDigits_ne_nil (fun _ => isDigit_of_mem_digits) hrest

section OfInt

variable {i : Int} {rest : List Char}

theorem Leading.head_ofInt (hrest : ∀ c ∈ rest.head?, ¬c.isDigit) :
    (ofInt i rest hrest).sign ++ (ofInt i rest hrest).digits = (decimal i).toList := by
  rw [toList_decimal]
  by_cases h : i < 0 <;> simp [ofInt, ofDigits, withSign, h]

variable {hrest : ∀ c ∈ rest.head?, ¬c.isDigit}

theorem Leading.value_ofInt : (ofInt i rest hrest).value = i := by
  have hdigits : digitsValue (ofInt i rest hrest).digits = i.natAbs := digitsValue_digits _
  rw [value, hdigits]
  by_cases h : i < 0
  · rw [if_pos (by simp [ofInt, ofDigits, h])]
    omega
  · rw [if_neg (by simp [ofInt, ofDigits, h])]
    omega

theorem Leading.fits_ofInt (hlow : -2 ^ 63 ≤ i) (hhigh : i < 2 ^ 63) :
    (ofInt i rest hrest).Fits := by
  refine ⟨Nat.toDigits_ne_nil, ?_, ?_⟩ <;> rw [value_ofInt] <;> omega

end OfInt

theorem readInt?_decimal {i : Int} (hlow : -2 ^ 63 ≤ i) (hhigh : i < 2 ^ 63) :
    readInt? (decimal i).toList = some (Int64.ofInt i) := by
  have hrest : ∀ c ∈ ([] : List Char).head?, ¬c.isDigit := by simp
  rw [← Leading.head_ofInt hrest, Leading.readInt?_head,
    if_pos (Leading.fits_ofInt hlow hhigh), Leading.value_ofInt]

/-- **A numeral is read back**, whatever is behind it, unless it goes on with a digit. -/
theorem leadingInt_decimal_append (n : Int64) (suffix : String)
    (h : ∀ c ∈ suffix.toList.head?, ¬c.isDigit) :
    leadingInt (decimal n.toInt ++ suffix) = n := by
  let l := Leading.ofInt n.toInt suffix.toList h
  have hchars : l.chars = (decimal n.toInt ++ suffix).toList := by
    rw [String.toList_append, ← Leading.head_ofInt h, List.append_assoc]
    rfl
  apply Int64.toInt_inj.mp
  rw [l.toInt_leadingInt hchars, if_pos (Leading.fits_ofInt n.le_toInt n.toInt_lt),
    Leading.value_ofInt]

theorem decimal_toInt_inj {m n : Int64} : decimal m.toInt = decimal n.toInt ↔ m = n := by
  have hread (n : Int64) : leadingInt (decimal n.toInt) = n := by
    simpa using leadingInt_decimal_append n "" (by simp)
  refine ⟨fun h => ?_, fun h => h ▸ rfl⟩
  rw [← hread m, h, hread]

theorem leadingInt_of_digits {text : String} (hne : text ≠ "") (h : ∀ c ∈ text.toList, c.isDigit) :
    leadingInt text = (readInt? text.toList).getD 0 := by
  let l := Leading.ofDigits [] text.toList [] (.inl rfl) (by simpa using hne) h (by simp)
  have hchars : l.chars = text.toList := List.append_nil text.toList
  rw [leadingInt, ← hchars, l.intHead_trimStart, hchars]
  rfl

theorem isDoubleLiteral_of_digits {text : String} (h : ∀ c ∈ text.toList, c.isDigit) :
    isDoubleLiteral text = false := by
  rw [isDoubleLiteral, List.any_eq_false]
  intro c hc hmark
  have hdigit := h c hc
  simp only [Bool.or_eq_true, beq_iff_eq] at hmark
  rcases hmark with (rfl | rfl) | rfl <;> exact absurd hdigit (by decide)

/-- **Reading integers.** Every text starts with blanks, a sign or none, and digits, and is read as
the integer that they stand for, or as zero if there are no digits or too many. So numerals are read
back if no digit is behind them, and the code of a literal holds what is read from its text. -/
theorem leadingInt_reads :
    (∀ s : String, (∃ l : Leading, l.chars = s.toList) ∧
      ∀ l : Leading, l.chars = s.toList → (leadingInt s).toInt = if l.Fits then l.value else 0) ∧
    (∀ (n : Int64) (suffix : String), (∀ c ∈ suffix.toList.head?, ¬c.isDigit) →
      leadingInt (decimal n.toInt ++ suffix) = n) ∧
    ∀ (e : Tree) (d : Demand) (s : Emit.State), e.kind = .number → e.text ≠ "" →
      (∀ c ∈ e.text.toList, c.isDigit) → d ≠ .double →
      Emit.code (Emit.expression e d) s = .pushInt (leadingInt e.text) :: Emit.dropped d := by
  refine ⟨fun s => ⟨Leading.exists_chars_eq s.toList, fun l => l.toInt_leadingInt⟩,
    leadingInt_decimal_append, ?_⟩
  rintro ⟨kind, text, isArray, loc, children⟩ d s rfl hne h hd
  have hliteral : literal text d = .pushInt (leadingInt text) := by
    simp [literal, isDoubleLiteral_of_digits h, hd, leadingInt_of_digits hne h]
  simp [Emit.expression, hliteral]

/-- The least integer before an exponent, and a literal with zeros before it. -/
theorem leastInt_leadingInt_reads :
    leadingInt (decimal Int64.minValue.toInt ++ "e5") = Int64.minValue ∧
    Emit.code (Emit.expression { kind := .number, text := "007", loc := ⟨1, 1⟩ } .value) {} =
      [.pushInt (leadingInt "007")] :=
  ⟨leadingInt_reads.2.1 Int64.minValue "e5" (by rintro c ⟨⟩; decide),
    leadingInt_reads.2.2 _ .value {} rfl (by decide) (List.all_eq_true.mp rfl) (by decide)⟩

end Number

namespace BinOp

open Value

theorem eq_apply_int (a b : Int64) : eq.apply (.int a) (.int b) = .ofBool (a == b) := by
  have htext : (toText (.int a) == toText (.int b)) = (a == b) :=
    Bool.eq_iff_iff.mpr (by simp [toText, Number.decimal_toInt_inj])
  rw [apply, htext]

theorem ne_apply_int (a b : Int64) : ne.apply (.int a) (.int b) = .ofBool (a != b) := by
  have htext : (toText (.int a) != toText (.int b)) = (a != b) :=
    Bool.eq_iff_iff.mpr (by simp [toText, Number.decimal_toInt_inj])
  rw [apply, htext]

theorem ofBool_eq_int (c : Bool) : (ofBool c = .int 1 ↔ c) ∧ (ofBool c = .int 0 ↔ ¬c) := by
  cases c <;> simp [ofBool]

/-- **Comparisons of integers agree with each other.** Exactly one of less, equal and greater holds,
and the other three comparisons are put together from them. -/
theorem trichotomy_int (a b : Int64) :
    let r (op : BinOp) := op.apply (.int a) (.int b)
    (r lt = .int 1 ∧ r eq = .int 0 ∧ r gt = .int 0 ∨ r lt = .int 0 ∧ r eq = .int 1 ∧ r gt = .int 0 ∨
      r lt = .int 0 ∧ r eq = .int 0 ∧ r gt = .int 1) ∧
    (∀ op ∈ [le, ge, ne], r op = .int 0 ∨ r op = .int 1) ∧
    (r le = .int 1 ↔ r lt = .int 1 ∨ r eq = .int 1) ∧
    (r ge = .int 1 ↔ r gt = .int 1 ∨ r eq = .int 1) ∧
    (r ne = .int 1 ↔ r eq = .int 0) := by
  intro r
  have hlt : r lt = .ofBool (a < b) := rfl
  have hgt : r gt = .ofBool (b < a) := rfl
  have hle : r le = .ofBool (a ≤ b) := rfl
  have hge : r ge = .ofBool (b ≤ a) := rfl
  have heq : r eq = .ofBool (a == b) := eq_apply_int a b
  have hne : r ne = .ofBool (a != b) := ne_apply_int a b
  simp only [hlt, hgt, hle, hge, heq, hne, ofBool_eq_int, List.forall_mem_cons, decide_eq_true_eq,
    beq_iff_eq, bne_iff_ne, ne_eq, Int64.lt_iff_toInt_lt, Int64.le_iff_toInt_le, ← Int64.toInt_inj]
  refine ⟨by omega, ⟨by omega, by omega, by omega, by simp⟩, by omega, by omega, trivial⟩

end BinOp

end Stacklet
