import Mathlib.Data.List.DropRight
import Stacklet.Proofs.Decimal
import Stacklet.Proofs.Decimal.Rounding
/-!
# The text of doubles

* `Number.Written`: decimal numerals, their texts and the numbers that they stand for.
* `Number.general_eq`: the form of a double is decided by its exponent once it has been rounded. If
  it is written again for that, then with the same digits (`Number.Rounded.roundHalfEven_scale`).
* `Number.exists_written`: the text of a double is a numeral that stands for the rounded number.
* **`Number.general_rounds`**: the text of a double stands for the double rounded to six significant
  digits.
-/

namespace Stacklet.Number

/-! ## Digits -/

theorem digitsValue_append_zeros (ds : List Char) (k : ℕ) :
    digitsValue (ds ++ List.replicate k '0') = digitsValue ds * 10 ^ k := by
  show Nat.ofDigitChars 10 _ 0 = _
  rw [Nat.ofDigitChars_append, Nat.ofDigitChars_replicate_zero, Nat.mul_comm]
  rfl

theorem digitsValue_zeros_append (k : ℕ) (ds : List Char) :
    digitsValue (List.replicate k '0' ++ ds) = digitsValue ds := by
  show Nat.ofDigitChars 10 _ 0 = _
  rw [Nat.ofDigitChars_append, Nat.ofDigitChars_replicate_zero]
  rfl

theorem length_digits {p n : ℕ} (hp : 0 < p) (hlow : 10 ^ (p - 1) ≤ n) (hhigh : n < 10 ^ p) :
    (digits n).length = p := by
  have hle : (digits n).length ≤ p := (Nat.length_toDigits_le_iff (by decide) hp).mpr hhigh
  have hpos : 0 < (digits n).length := Nat.length_toDigits_pos
  by_contra hne
  have hlt : (digits n).length ≤ p - 1 := by omega
  exact Nat.not_lt.mpr hlow ((Nat.length_toDigits_le_iff (by decide) (by omega)).mp hlt)

/-! ## Characters at the end of a text -/

theorem trimEnd_append (c : Char) (cs : List Char) :
    ∃ k, cs = trimEnd c cs ++ List.replicate k c := by
  have hend : cs.rtakeWhile (· == c) = List.replicate (cs.rtakeWhile (· == c)).length c :=
    List.eq_replicate_of_mem fun d hd => by simpa using List.mem_rtakeWhile_imp hd
  refine ⟨(cs.rtakeWhile (· == c)).length, ?_⟩
  rw [← hend]
  exact List.rdropWhile_append_rtakeWhile.symm

theorem getLast?_trimEnd (c : Char) (cs : List Char) : (trimEnd c cs).getLast? ≠ some c := by
  rw [trimEnd, List.getLast?_reverse]
  intro h
  have := List.head?_dropWhile_not (· == c) cs.reverse
  simp [h] at this

theorem trimEnd_of_getLast? {c : Char} {cs : List Char} (h : cs.getLast? ≠ some c) :
    trimEnd c cs = cs := by
  obtain ⟨k, hk⟩ := trimEnd_append c cs
  cases k with
  | zero => simpa using hk.symm
  | succ k =>
    rw [hk, List.replicate_succ'] at h
    simp at h

theorem trimEnd_append_cons {c d : Char} (hd : d ≠ c) (xs ys : List Char) :
    trimEnd c (xs ++ d :: ys) = xs ++ d :: trimEnd c ys := by
  simp [trimEnd, List.dropWhile_append, hd]

theorem joinPoint_eq (whole part : List Char) : joinPoint whole part =
    whole ++ if trimEnd '0' part = [] then [] else '.' :: trimEnd '0' part := by
  unfold joinPoint
  split <;> simp_all

theorem trimFraction_pointed (negative : Bool) {whole part : List Char} (hwhole : '.' ∉ whole)
    (hpart : '.' ∉ part) :
    trimFraction (withSign negative (pointed whole part)) =
      withSign negative (joinPoint whole part) := by
  have hsign : '.' ∉ withSign negative whole := by
    cases negative <;> simpa [withSign] using hwhole
  have happend (ds : List Char) : withSign negative (whole ++ ds) =
      withSign negative whole ++ ds := by
    cases negative <;> rfl
  by_cases hnil : part = []
  · simp [trimFraction, pointed, hnil, hsign, joinPoint, trimEnd]
  · have hpointed : pointed whole part = whole ++ '.' :: part := by simp [pointed, hnil]
    rw [hpointed, joinPoint_eq, happend, happend, trimFraction, if_pos (by simp),
      trimEnd_append_cons (by decide)]
    split
    · next hds =>
      have hend : trimEnd '.' (withSign negative whole ++ ['.']) =
          trimEnd '.' (withSign negative whole) := by
        simp [trimEnd]
      rw [hds, hend, List.append_nil]
      exact trimEnd_of_getLast? fun h => hsign (List.mem_of_getLast? h)
    · next hds =>
      apply trimEnd_of_getLast?
      rw [← List.singleton_append, ← List.append_assoc, List.getLast?_append_of_ne_nil _ hds]
      intro hlast
      obtain ⟨k, hk⟩ := trimEnd_append '0' part
      apply hpart
      rw [hk]
      exact List.mem_append_left _ (List.mem_of_getLast? hlast)

/-! ## Numerals with a point and an exponent -/

/-- A decimal numeral: digits before and behind a point, and an exponent, by its sign and digits, or
none. Digits behind the point do not end in a zero, and an exponent has two digits or more. -/
structure Written where
  negative : Bool
  whole : List Char
  part : List Char
  exponent : Option (Bool × List Char)
  whole_ne_nil : whole ≠ []
  isDigit : ∀ c ∈ whole ++ part, c.isDigit
  trimmed : part.getLast? ≠ some '0'
  isExponent : ∀ e ∈ exponent, 2 ≤ e.2.length ∧ ∀ c ∈ e.2, c.isDigit

namespace Written

/-- The text of an exponent, or of none. -/
def powerText : Option (Bool × List Char) → List Char
  | none => []
  | some (negative, ds) => 'e' :: (if negative then '-' else '+') :: ds

/-- The text of a numeral. A point is only written if digits are behind it. -/
def text (w : Written) : String :=
  let point := if w.part = [] then [] else '.' :: w.part
  signed w.negative (w.whole ++ point ++ powerText w.exponent)

/-- The power of ten that the exponent stands for. -/
def power (w : Written) : ℤ :=
  match w.exponent with
  | none => 0
  | some (negative, ds) => if negative then -(digitsValue ds : ℤ) else digitsValue ds

/-- The number that a numeral stands for. -/
def value (w : Written) : ℚ :=
  (if w.negative then -1 else 1) * (digitsValue
    (w.whole ++ w.part) * 10 ^ (w.power - w.part.length))

/-- The numeral with the digits `whole` and `part` around the point. Zeros at the end are left
out. -/
def ofPoint (negative : Bool) {whole part : List Char} (hne : whole ≠ [])
    (h : ∀ c ∈ whole ++ part, c.isDigit) (exponent : Option (Bool × List Char))
    (hexp : ∀ e ∈ exponent, 2 ≤ e.2.length ∧ ∀ c ∈ e.2, c.isDigit) : Written where
  negative := negative
  whole := whole
  part := trimEnd '0' part
  exponent := exponent
  whole_ne_nil := hne
  isDigit c hc := by
    obtain ⟨k, hk⟩ := trimEnd_append '0' part
    apply h c
    rw [hk]
    grind
  trimmed := getLast?_trimEnd _ part
  isExponent := hexp

section OfPoint

variable {negative : Bool} {whole part : List Char} {hne : whole ≠ []}
  {h : ∀ c ∈ whole ++ part, c.isDigit}
  {exponent : Option (Bool × List Char)}
  {hexp : ∀ e ∈ exponent, 2 ≤ e.2.length ∧ ∀ c ∈ e.2, c.isDigit}

theorem text_ofPoint : (ofPoint negative hne h exponent hexp).text =
    signed negative (joinPoint whole part ++ powerText exponent) := by
  rw [joinPoint_eq]
  rfl

/-- The zeros that are left out do not change the number. -/
theorem value_ofPoint {p : ℤ} (hp : (ofPoint negative hne h exponent hexp).power = p) :
    (ofPoint negative hne h exponent hexp).value =
      (if negative then -1 else 1) * (digitsValue (whole ++ part) * 10 ^ (p - part.length)) := by
  obtain ⟨k, hk⟩ := trimEnd_append '0' part
  have hvalue : digitsValue (whole ++ part) = digitsValue (whole ++ trimEnd '0' part) * 10 ^ k := by
    rw [← digitsValue_append_zeros, List.append_assoc, ← hk]
  have hlength : (part.length : ℤ) = (trimEnd '0' part).length + k := by
    conv_lhs => rw [hk]
    simp
  rw [value, hp, hvalue, hlength, ofPoint]
  push_cast
  rw [mul_assoc, ← zpow_natCast, ← zpow_add₀ (by norm_num)]
  congr 4
  omega

end OfPoint

end Written

/-! ## Exponents -/

/-- The sign and the digits of an exponent. -/
def exponentParts (width : ℕ) (e : ℤ) : Bool × List Char :=
  (e < 0, List.replicate (width - (digits e.natAbs).length) '0' ++ digits e.natAbs)

theorem exponentParts_spec {width : ℕ} (hwidth : 2 ≤ width) (e : ℤ) :
    ∀ x ∈ some (exponentParts width e), 2 ≤ x.2.length ∧ ∀ c ∈ x.2, c.isDigit := by
  rintro _ ⟨⟩
  refine ⟨?_, fun c hc => ?_⟩
  · rw [exponentParts, List.length_append, List.length_replicate]
    omega
  · rcases List.mem_append.mp hc with hc | hc
    · rw [List.eq_of_mem_replicate hc]
      rfl
    · exact isDigit_of_mem_digits hc

/-! ## The text of doubles -/

theorem value_magnitude (m : ℕ) (e : ℤ) : (magnitude m e).value = m * 2 ^ e := by
  cases e with
  | ofNat e =>
    rw [magnitude, Ratio.value, Int.ofNat_eq_natCast, zpow_natCast, Nat.shiftLeft_eq]
    push_cast
    exact div_one _
  | negSucc e =>
    rw [magnitude, Ratio.value, zpow_negSucc, Nat.one_shiftLeft, ← div_eq_mul_inv]
    push_cast
    rfl

theorem magnitude_pos {m : ℕ} (hm : 0 < m) (e : ℤ) :
    0 < (magnitude m e).num ∧ 0 < (magnitude m e).den := by
  cases e with
  | ofNat e => exact ⟨by rw [magnitude, Nat.shiftLeft_eq]; positivity, Nat.one_pos⟩
  | negSucc e => exact ⟨hm, by rw [magnitude, Nat.one_shiftLeft]; positivity⟩

theorem shape_bounds {x : Float} {negative : Bool} {m : ℕ} {e : ℤ}
    (h : shape x = .finite negative m e) :
    m < 2 ^ 53 ∧ -1074 ≤ e ∧ e ≤ 971 := by
  have hpart := Nat.mod_lt x.toBits.toNat (by decide : 0 < 1 <<< 52)
  have hfield := Nat.mod_lt (x.toBits.toNat >>> 52) (by decide : 0 < 1 <<< 11)
  simp only [shape, Shape.ofBits] at h
  generalize x.toBits.toNat % (1 <<< 52) = part at *
  generalize (x.toBits.toNat >>> 52) % (1 <<< 11) = field at *
  simp only [leastExponent, Nat.shiftLeft_eq, Nat.one_mul] at h hpart hfield
  split at h
  · split at h <;> cases h
  · split at h <;> (cases h; omega)

theorem decimalExponent_bounds {m : ℕ} {e : ℤ} (hm : 0 < m) (hhigh : m < 2 ^ 53)
    (hleast : -1074 ≤ e) (hgreatest : e ≤ 971) :
    -1075 ≤ (magnitude m e).decimalExponent ∧ (magnitude m e).decimalExponent < 1024 := by
  obtain ⟨hnum, hden⟩ := magnitude_pos hm e
  have hle := Ratio.pow_decimalExponent_le hnum hden
  have hlt := Ratio.lt_pow_decimalExponent hnum hden
  generalize (magnitude m e).decimalExponent = E at *
  have hpow {b : ℚ} (hb : 1 ≤ b) {i j : ℤ} (h : i ≤ j) : b ^ i ≤ b ^ j := zpow_le_zpow_right₀ hb h
  rw [value_magnitude] at hle hlt
  constructor
  · by_contra h
    have hvalue : (2 : ℚ) ^ (-1074 : ℤ) ≤ m * 2 ^ e := by
      calc (2 : ℚ) ^ (-1074 : ℤ) ≤ 2 ^ e := hpow (by norm_num) hleast
        _ ≤ m * 2 ^ e := le_mul_of_one_le_left (by positivity) (by exact_mod_cast hm)
    have hsmall := hpow (by norm_num : (1 : ℚ) ≤ 10) (by omega : E + 1 ≤ -1074)
    have hbase : (10 : ℚ) ^ (-1074 : ℤ) ≤ 2 ^ (-1074 : ℤ) := by
      rw [zpow_neg, zpow_neg]
      exact inv_anti₀ (by positivity) (zpow_le_zpow_left₀ (by norm_num) (by norm_num) (by norm_num))
    exact absurd (hlt.trans_le (hsmall.trans hbase)) (not_lt.mpr hvalue)
  · by_contra h
    have hvalue : (m : ℚ) * 2 ^ e ≤ 2 ^ 53 * 2 ^ (971 : ℤ) :=
      mul_le_mul (by exact_mod_cast hhigh.le) (hpow (by norm_num) hgreatest) (by positivity)
        (by norm_num)
    have hlarge := hpow (by norm_num : (1 : ℚ) ≤ 10) (by omega : 1024 ≤ E)
    have hbase : (2 : ℚ) ^ 53 * 2 ^ (971 : ℤ) < 10 ^ (1024 : ℤ) := by
      rw [← zpow_natCast, ← zpow_add₀ (by norm_num)]
      exact zpow_lt_zpow_left₀ (by norm_num) (by norm_num) (by norm_num)
    exact absurd (hlarge.trans hle) (not_le.mpr (hvalue.trans_lt hbase))

/-! ## The two forms of a double -/

theorem splitExponent?_append {cs : List Char} (hcs : 'e' ∉ cs) {e : ℤ} (hlow : -2 ^ 31 ≤ e)
    (hhigh : e < 2 ^ 31) :
    splitExponent? (cs ++ 'e' :: (decimal e).toList) = some (cs, e) := by
  have hbefore (c : Char) (hc : c ∈ cs) : c != 'e' := bne_iff_ne.mpr fun h => hcs (h ▸ hc)
  have hhead : ∀ c ∈ ('e' :: (decimal e).toList).head?, ¬(c != 'e') = true := by simp
  obtain ⟨htake, hdrop⟩ := takeWhile_append_of_head? (p := (· != 'e')) hbefore hhead
  have hmin : Int32.minValue.toInt = -2 ^ 31 := by decide
  have hmax : Int32.maxValue.toInt = 2 ^ 31 - 1 := by decide
  have hint : (Int64.ofInt e).toInt = e := Int64.toInt_ofInt_of_le (by omega) (by omega)
  rw [splitExponent?, hdrop]
  simp only [readInt?_decimal (by omega : -2 ^ 63 ≤ e) (by omega), htake, hint, hmin, hmax]
  exact if_pos (by omega)

theorem exists_fixed (k : ℕ) (r : Ratio) :
    ∃ whole part, fixed k r = pointed whole part ∧ whole ≠ [] ∧
    part.length = k ∧ (∀ c ∈ whole ++ part, c.isDigit) ∧
    digitsValue (whole ++ part) = roundHalfEven (r.scale k).num (r.scale k).den := by
  obtain ⟨q, hq⟩ : ∃ q, roundHalfEven (r.scale k).num (r.scale k).den = q := ⟨_, rfl⟩
  obtain ⟨ds, hds⟩ : ∃ ds, List.replicate (k + 1 - (digits q).length) '0' ++ digits q = ds :=
    ⟨_, rfl⟩
  have hlength : k < ds.length := by
    rw [← hds, List.length_append, List.length_replicate]
    omega
  refine ⟨ds.take (ds.length - k), ds.drop (ds.length - k), by simp [fixed, hq, hds], ?_,
    ?_, ?_, ?_⟩
  · rw [Ne, List.take_eq_nil_iff, ← List.length_eq_zero_iff]
    omega
  · rw [List.length_drop]
    omega
  · rw [List.take_append_drop, ← hds]
    intro c hc
    rcases List.mem_append.mp hc with hc | hc
    · rw [List.eq_of_mem_replicate hc]
      rfl
    · exact isDigit_of_mem_digits hc
  · rw [List.take_append_drop, ← hds, digitsValue_zeros_append, digitsValue_digits, hq]

theorem notMem_of_isDigit {cs : List Char} (h : ∀ c ∈ cs, c.isDigit) {c : Char}
    (hc : c.isDigit = false) : c ∉ cs :=
  fun hmem => by simp [h c hmem] at hc

section Forms

variable {x : Float} {negative : Bool} {m : ℕ} {e : ℤ} (hshape : shape x = .finite negative m e)
  (hm : 0 < m)
  {n : Rounded} (hn : Rounded.ofRatio printed.precision (magnitude m e) = n)

include hshape hm hn

/-- **The form of a double** is decided by its exponent once it has been rounded. -/
theorem general_eq : general x = String.ofList (
    if n.exponent < printed.leastPositional ∨ printed.precision ≤ n.exponent then
      withSign negative (joinPoint ((digits n.digits).take 1) ((digits n.digits).drop 1)) ++
        'e' :: exponentText printed.exponentWidth n.exponent
    else trimFraction (withSign negative
      (fixed (printed.precision - 1 - n.exponent).toNat (magnitude m e)))) := by
  have hdigit {c : Char} (hc : c.isDigit = false) : c ∉ (digits n.digits).take 1 ∧
      c ∉ (digits n.digits).drop 1 := by
    rw [← not_or, ← List.mem_append, List.take_append_drop]
    exact notMem_of_isDigit (fun _ => isDigit_of_mem_digits) hc
  have hmantissa : 'e' ∉ withSign negative
      (pointed ((digits n.digits).take 1) ((digits n.digits).drop 1)) := by
    obtain ⟨hwhole, hpart⟩ := hdigit (c := 'e') rfl
    unfold withSign pointed
    grind
  have hsplit :
      splitExponent? (withSign negative (scientific (printed.precision - 1) (magnitude m e))) =
      some (withSign negative (pointed ((digits n.digits).take 1) ((digits n.digits).drop 1)),
          n.exponent) := by
    obtain ⟨hhigh, hleast, hgreatest⟩ := shape_bounds hshape
    have hbounds := decimalExponent_bounds hm hhigh hleast hgreatest
    have hexponent := Rounded.exponent_ofRatio printed.precision (magnitude m e)
    rw [hn] at hexponent
    rw [← splitExponent?_append hmantissa (by omega) (by omega), scientific,
      show printed.precision - 1 + 1 = printed.precision from rfl, hn]
    cases negative <;> rfl
  obtain ⟨hwhole, hpart⟩ := hdigit (c := '.') rfl
  rw [general, hshape]
  simp only [hm.ne', ↓reduceIte, hsplit, trimFraction_pointed negative hwhole hpart]

/-- **The text of a double** stands for the rounded number. -/
theorem exists_written : ∃ w : Written, general x = w.text ∧
    w.value = (if negative then -1 else 1) * n.value printed.precision ∧
    (w.exponent.isSome ↔ n.exponent < printed.leastPositional ∨ printed.precision ≤ n.exponent) ∧
    (w.exponent.isSome → w.power = n.exponent) := by
  obtain ⟨hnum, hden⟩ := magnitude_pos hm e
  obtain ⟨hlow, hhigh, -, -⟩ := Rounded.ofRatio_spec (by decide) hnum hden hn
  have hlength := length_digits (by decide) hlow hhigh
  rw [general_eq hshape hm hn]
  by_cases hform : n.exponent < printed.leastPositional ∨ printed.precision ≤ n.exponent
  · have hne : (digits n.digits).take 1 ≠ [] := by
      rw [Ne, List.take_eq_nil_iff, ← List.length_eq_zero_iff, hlength]
      decide
    have hdigits : ∀ c ∈ (digits n.digits).take 1 ++ (digits n.digits).drop 1, c.isDigit := by
      rw [List.take_append_drop]
      exact fun _ => isDigit_of_mem_digits
    let w :=
      Written.ofPoint negative hne hdigits (some (exponentParts printed.exponentWidth n.exponent))
      (exponentParts_spec (by decide) n.exponent)
    have hpower : w.power = n.exponent := by
      simp only [w, Written.power, Written.ofPoint, exponentParts, digitsValue_zeros_append,
        digitsValue_digits, decide_eq_true_eq]
      split <;> omega
    refine ⟨w, ?_, ?_, by simp [w, Written.ofPoint, hform], fun _ => hpower⟩
    · rw [if_pos hform, Written.text_ofPoint]
      cases negative <;> simp [signed, withSign, exponentText, exponentParts, Written.powerText]
    · have hplace : n.exponent + 1 - printed.precision =
          n.exponent - (printed.precision - 1 : ℕ) := by
        simp only [printed]
        omega
      rw [Written.value_ofPoint hpower, List.take_append_drop, digitsValue_digits, List.length_drop,
        hlength, Rounded.value, hplace]
  · -- The second time, the number is rounded to the place of the last digit of the first.
    obtain ⟨k, hk⟩ : ∃ k : ℕ, (printed.precision : ℤ) - 1 - n.exponent = k :=
      ⟨_, (Int.toNat_of_nonneg (by simp only [printed] at hform ⊢; omega)).symm⟩
    obtain ⟨whole, part, hfixed, hne, hpart, hdigits, hvalue⟩ := exists_fixed k (magnitude m e)
    rw [Rounded.roundHalfEven_scale (by decide) hnum hden hn hk.symm] at hvalue
    have hpoint : '.' ∉ whole ++ part := notMem_of_isDigit hdigits rfl
    rw [List.mem_append, not_or] at hpoint
    let w := Written.ofPoint negative hne hdigits none (by simp)
    refine ⟨w, ?_, ?_, by simp [w, Written.ofPoint, hform], by simp [w, Written.ofPoint]⟩
    · rw [if_neg hform, hk, Int.toNat_natCast, hfixed, trimFraction_pointed negative
        hpoint.1 hpoint.2, Written.text_ofPoint, Written.powerText, List.append_nil]
      rfl
    · rw [Written.value_ofPoint (p := 0) rfl, hvalue, hpart, Rounded.value,
        show n.exponent + 1 - printed.precision = 0 - (k : ℤ) by omega]

end Forms

/-- The number that a double stands for exactly. -/
def Shape.value? : Shape → Option ℚ
  | .finite negative m e => some ((if negative then -1 else 1) * (m * 2 ^ e))
  | _ => none

/-- **The text of a double** stands for the double rounded to six significant digits, and for no
other number. The first of these digits has the weight `10 ^ E`. If `E` is small or large, the text
has `E` as its exponent; otherwise it has none. -/
theorem general_rounds {x : Float} {v : ℚ} (hx : (shape x).value? = some v) (hv : v ≠ 0) :
    ∃ (r : ℚ) (E : ℤ) (w : Written), (∀ q, RoundsTo 6 v q ↔ q = r) ∧
      (10 : ℚ) ^ E ≤ |r| ∧ |r| < (10 : ℚ) ^ (E + 1) ∧
      NearestEven (10 ^ (E - 5)) v r ∧ general x = w.text ∧ w.value = r ∧
      (w.exponent.isSome ↔ E < -4 ∨ 6 ≤ E) ∧ (w.exponent.isSome → w.power = E) := by
  cases hshape : shape x with
  | nan => simp [hshape, Shape.value?] at hx
  | infinite _ => simp [hshape, Shape.value?] at hx
  | finite negative m e =>
    rw [hshape, Shape.value?, Option.some.injEq, ← value_magnitude] at hx
    have hm : 0 < m := by
      rw [Nat.pos_iff_ne_zero]
      rintro rfl
      exact hv (by simp [← hx, value_magnitude])
    obtain ⟨n, hn⟩ : ∃ n, Rounded.ofRatio printed.precision (magnitude m e) = n := ⟨_, rfl⟩
    obtain ⟨hnum, hden⟩ := magnitude_pos hm e
    obtain ⟨hlow, hhigh, hround, hagain⟩ := Rounded.ofRatio_spec (by decide) hnum hden hn
    obtain ⟨w, htext, hvalue, hform, hpower⟩ := exists_written hshape hm hn
    obtain ⟨hfirst, hlast⟩ := Rounded.value_bounds (by decide) hlow hhigh
    have hfirst' := Ratio.pow_decimalExponent_le hnum hden
    have habs {y : ℚ} (hy : 0 < y) : |(if negative then -1 else 1) * y| = y := by
      cases negative <;> simp [abs_of_pos hy]
    have hpos {a : ℤ} {y : ℚ} (h : (10 : ℚ) ^ a ≤ y) : 0 < y :=
      (by positivity : (0 : ℚ) < 10 ^ a).trans_le h
    have hr : RoundsTo 6 v w.value := by
      refine ⟨(magnitude m e).decimalExponent, ?_⟩
      rw [← hx, habs (hpos hfirst'), hvalue]
      exact ⟨hfirst', Ratio.lt_pow_decimalExponent hnum hden, hround.mul_sign negative⟩
    rw [← hx] at hr ⊢
    refine ⟨w.value, n.exponent, w, fun q => ⟨(·.unique hr), (· ▸ hr)⟩, ?_, ?_, ?_, htext,
      rfl, hform, hpower⟩
    · rwa [hvalue, habs (hpos hfirst)]
    · rwa [hvalue, habs (hpos hfirst)]
    · rw [hvalue, show n.exponent - 5 = n.exponent + 1 - (6 : ℕ) by omega]
      exact hagain.mul_sign negative

/-- 999999.5 is half way between two numbers of six digits, and carries. -/
theorem carry_general_rounds :
    (shape (Float.ofBits 0x412E847F00000000)).value? = some (1999999 / 2) ∧
    (1999999 / 2 : ℚ) ≠ 0 ∧ ∃ (r : ℚ) (E : ℤ) (w : Written),
      (∀ q, RoundsTo 6 (1999999 / 2) q ↔ q = r) ∧
      general (Float.ofBits 0x412E847F00000000) = w.text ∧ w.value = r ∧
      (w.exponent.isSome ↔ E < -4 ∨ 6 ≤ E) := by
  have hx : (shape (Float.ofBits 0x412E847F00000000)).value? = some (1999999 / 2) := by
    have hshape : shape (Float.ofBits 0x412E847F00000000) = .finite false 8589930297032704
      (-33) := by decide
    rw [hshape, Shape.value?]
    norm_num
  obtain ⟨r, E, w, hr, -, -, -, htext, hvalue, hform, -⟩ := general_rounds hx (by norm_num)
  exact ⟨hx, by norm_num, r, E, w, hr, htext, hvalue, hform⟩

end Stacklet.Number
