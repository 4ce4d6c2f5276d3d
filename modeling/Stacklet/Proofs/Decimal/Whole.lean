import Stacklet.Proofs.Decimal.Text
import Stacklet.Proofs.Slots
/-!
# Doubles that are whole numbers

* `Number.shape_eq_ofUnpacked`: the fields of a double are those of the model of floating point
  numbers.
* `Number.exists_shape_ofInt64`: integers up to `2 ^ 53` are doubles exactly.
* `Number.general_of_whole`: whole numbers of at most six digits are written as integers are, larger
  ones with an exponent.
* **`BinOp.apply_widened`**: how an integer compares with its double.
-/

namespace Stacklet.Number

open Float.Model Float.Model.UnpackedFloat

/-! ## Fields of a double -/

def isNegative : Sign → Bool
  | .negative => true
  | .positive => false

/-- What an unpacked double stands for. -/
def Shape.ofUnpacked : UnpackedFloat → Shape
  | .notANumber => .nan
  | .infinity s => .infinite (isNegative s)
  | .zero s => .finite (isNegative s) 0 leastExponent
  | .finite s m e _ => .finite (isNegative s) m e

theorem exists_unpack_of_normal {b : BitVec 64} (hones : @unpackExponent .binary64 b ≠ -1#11)
    (hzero : @unpackExponent .binary64 b ≠ 0#11) : ∃ hm, unpack .binary64 b =
      .finite (.ofBitVec (@unpackSign .binary64 b)) (1#1 ++ @unpackMantissa .binary64 b).toNat
        ((@unpackExponent .binary64 b).toNat - 1075) hm :=
  ⟨_, (if_neg hones).trans (if_neg hzero)⟩

theorem shape_eq_ofUnpacked (x : Float) : shape x = .ofUnpacked x.toModel.unpack := by
  show Shape.ofBits x.toModel.toBits.toBitVec.toNat =
    .ofUnpacked (UnpackedFloat.unpack .binary64 x.toModel.toBits.toBitVec)
  generalize x.toModel.toBits.toBitVec = b
  have hsign : isNegative (Sign.ofBitVec (@unpackSign .binary64 b)) =
      ((b.toNat >>> 63) % 2 == 1) := by
    have hbit : (@unpackSign .binary64 b).toNat = (b.toNat >>> 63) % 2 := by
      delta unpackSign
      simp
    rw [← hbit]
    rcases BitVec.eq_zero_or_eq_one (@unpackSign .binary64 b) with h | h <;> rw [h] <;> rfl
  have hexp : (@unpackExponent .binary64 b).toNat = (b.toNat >>> 52) % (1 <<< 11) := by
    simp [unpackExponent]
  have hman : (@unpackMantissa .binary64 b).toNat = b.toNat % (1 <<< 52) := by
    simp [unpackMantissa]
  have hones : (@unpackExponent .binary64 b).toNat = 2047 ↔ @unpackExponent .binary64 b = -1#_ := by
    rw [← BitVec.toNat_inj]
    rfl
  have hzero {w : ℕ} (v : BitVec w) : v.toNat = 0 ↔ v = 0#_ := by
    rw [← BitVec.toNat_inj, BitVec.toNat_zero]
  have happend : (1#1 ++ @unpackMantissa .binary64 b).toNat =
      (1 <<< 52) + (@unpackMantissa .binary64 b).toNat := by
    rw [BitVec.toNat_append, ← Nat.shiftLeft_add_eq_or_of_lt (BitVec.isLt _)]
    rfl
  rw [Shape.ofBits]
  simp only [← hsign, ← hexp, ← hman, hones, hzero]
  -- unpacking looks at the same fields in the same order
  split
  · next hexponent =>
    split
    · next hmantissa =>
      have hunpack : unpack .binary64 b = .infinity (.ofBitVec (@unpackSign .binary64 b)) :=
        (if_pos hexponent).trans (if_pos hmantissa)
      rw [hunpack]
      rfl
    · next hmantissa =>
      have hunpack : unpack .binary64 b = .notANumber :=
        (if_pos hexponent).trans (if_neg hmantissa)
      rw [hunpack]
      rfl
  · next hfinite =>
    split
    · next hexponent =>
      by_cases hmantissa : @unpackMantissa .binary64 b = 0#52
      · have hunpack : unpack .binary64 b = .zero (.ofBitVec (@unpackSign .binary64 b)) :=
          (if_neg hfinite).trans ((if_pos hexponent).trans (dif_pos hmantissa))
        rw [hunpack, hmantissa]
        rfl
      · obtain ⟨hm, hunpack⟩ : ∃ hm, unpack .binary64 b =
            .finite (.ofBitVec (@unpackSign .binary64 b)) (@unpackMantissa .binary64 b).toNat
              ((@unpackExponent .binary64 b).toNat - 1075 + 1) hm :=
          ⟨_, (if_neg hfinite).trans ((if_pos hexponent).trans (dif_neg hmantissa))⟩
        rw [hunpack, hexponent]
        rfl
    · next hexponent =>
      obtain ⟨hm, hunpack⟩ := exists_unpack_of_normal hfinite hexponent
      rw [hunpack]
      refine (Shape.finite.injEq ..).mpr ⟨rfl, happend.symm, ?_⟩
      rw [show leastExponent = -1074 from rfl]
      omega

/-! ## Normal doubles -/

/-- The mantissa has 53 bits, and the exponent is one of a double. -/
structure Normal (m : ℕ) (e : ℤ) : Prop where
  low : 2 ^ 52 ≤ m
  high : m < 2 ^ 53
  least : leastExponent ≤ e
  greatest : e ≤ 971

namespace Normal

variable {m : ℕ} {e : ℤ}

theorem pos (h : Normal m e) : 0 < m := Nat.lt_of_lt_of_le (by decide) h.low

theorem log2_mul_pow (h : Normal m e) (j : ℕ) : (m * 2 ^ j).log2 = 52 + j := by
  rw [Nat.log2_eq_iff (Nat.mul_pos h.pos (Nat.two_pow_pos j)).ne', Nat.pow_add, Nat.add_right_comm,
    Nat.pow_add]
  exact ⟨Nat.mul_le_mul_right _ h.low, Nat.mul_lt_mul_of_pos_right h.high (Nat.two_pow_pos j)⟩

theorem sign_packComponents {spec : Format} (s : Sign) (ex : BitVec spec.exponentBits)
    (man : BitVec spec.mantissaBitsWithoutImplicit) :
    Sign.ofBitVec (unpackSign (packComponents spec s ex man)) = s := by
  have hbit : unpackSign (packComponents spec s ex man) = s.toBitVec := by
    ext i hi
    obtain rfl : i = 0 := by omega
    delta unpackSign
    simp [packComponents, BitVec.getLsbD_append, BitVec.getElem_append]
  rw [hbit]
  cases s <;> rfl

/-- **Packing loses nothing** of a normal double. -/
theorem unpack_pack (h : Normal m e) (s : Sign) (hm : 0 < m) :
    (Float.Model.pack (.finite s m e hm)).unpack = .finite s m e hm := by
  have hleast : -1074 ≤ e := h.least
  have hgreatest := h.greatest
  obtain ⟨k, hk⟩ : ∃ k : ℕ, e + 1075 = k := ⟨(e + 1075).toNat, by omega⟩
  have hbiased : (e + Format.binary64.exponentBias + (52 : ℕ)).toNat = k := by
    rw [show (Format.binary64.exponentBias : ℤ) = 1023 from rfl]
    omega
  have hexp : (BitVec.ofNat 11 k).toNat = k := by
    rw [BitVec.toNat_ofNat, Nat.mod_eq_of_lt (by omega)]
  have hman : (1#1 ++ BitVec.ofNat 52 m).toNat = m := by
    have hlow := h.low
    have hhigh := h.high
    rw [BitVec.toNat_append, ← Nat.shiftLeft_add_eq_or_of_lt (BitVec.isLt _), BitVec.toNat_ofNat]
    show 2 ^ 52 + m % 2 ^ 52 = m
    omega
  have hpack : UnpackedFloat.pack .binary64 (.finite s m e hm) =
      packComponents .binary64 s (BitVec.ofNat 11 k) (BitVec.ofNat 52 m) := by
    have hlog : m.log2 = 52 := by simpa using h.log2_mul_pow 0
    refine (if_neg ?_).trans ((if_pos ?_).trans ?_)
    · show ¬ 2 ^ 11 ≤ (e + Format.binary64.exponentBias + (52 : ℕ)).toNat + 1
      omega
    · exact congrArg (· + 1) hlog
    · exact congrArg (fun k => packComponents .binary64 s (BitVec.ofNat 11 k) _) hbiased
  have hones : BitVec.ofNat 11 k ≠ -1#11 := by
    rw [Ne, ← BitVec.toNat_inj, hexp]
    show k ≠ 2047
    omega
  have hzero : BitVec.ofNat 11 k ≠ 0#11 := by
    rw [Ne, ← BitVec.toNat_inj, hexp, BitVec.toNat_zero]
    omega
  have hunpacked : @unpackExponent .binary64 (packComponents .binary64 s (BitVec.ofNat 11 k)
      (BitVec.ofNat 52 m)) = BitVec.ofNat 11 k := unpackExponent_packComponents
  rw [← hunpacked] at hones hzero
  obtain ⟨hm', hunpack⟩ := exists_unpack_of_normal hones hzero
  show unpack .binary64 (UnpackedFloat.pack .binary64 (.finite s m e hm)) = _
  rw [hpack, hunpack, UnpackedFloat.finite.injEq, sign_packComponents, hunpacked,
    unpackMantissa_packComponents, hexp]
  exact ⟨rfl, hman, by omega⟩

theorem shiftRight_zeros (m j : ℕ) :
    (⟨m * 2 ^ j, false, false⟩ : ExtendedMantissa) >>> j = ⟨m, false, false⟩ := by
  show j.repeat ExtendedMantissa.shiftRightOne _ = _
  induction j generalizing m with
  | zero => simp [Nat.repeat]
  | succ j ih =>
    rw [Nat.pow_succ, Nat.mul_comm (2 ^ j), ← Nat.mul_assoc, Nat.repeat, ih]
    simp [ExtendedMantissa.shiftRightOne]

/-- **Rounding changes nothing** if only zeros are behind the mantissa. -/
theorem roundWithAccuracy_eq {c : ℤ} {j : ℕ} (h : Normal m e) (he : c + j = e) (s : Sign) :
    roundWithAccuracy .binary64 s (m * 2 ^ j) c .exact = .finite s m e h.pos := by
  have hleast := h.least
  have htarget (k : ℤ) : Format.binary64.targetExponent k = max (k - 53) leastExponent := rfl
  have hshift {c : ℤ} {j : ℕ} (he : c + j = e) :
      shiftToTargetExponent .binary64 (m * 2 ^ j) c .exact = (⟨m, false, false⟩, e) := by
    have hamount : (Format.binary64.targetExponent (totalExponent (m * 2 ^ j) c) - c).toNat =
        j := by
      rw [htarget, totalExponent, h.log2_mul_pow]
      omega
    rw [shiftToTargetExponent, shiftToExponent, hamount, he]
    exact congrArg (·, e) (shiftRight_zeros m j)
  have hagain := hshift (c := e) (j := 0) (by simp)
  rw [Nat.pow_zero, Nat.mul_one] at hagain
  have hfinish (x : ExtendedMantissa × ℤ) (hx : x = (⟨m, false, false⟩, e)) :
      (if h : x.1.mantissa = 0 then zero s else
        .finite s x.1.mantissa x.2 (Nat.pos_of_ne_zero h)) = .finite s m e h.pos := by
    subst hx
    exact dif_neg h.pos.ne'
  rw [roundWithAccuracy, hshift he]
  exact hfinish _ hagain

end Normal

/-! ## Whole numbers -/

section OfNat

variable {k j : ℕ} (hk : 0 < k) (hj : k.log2 + j = 52)

include hk hj

theorem normal_mul_pow : Normal (k * 2 ^ j) (-j) := by
  have hleast : leastExponent = -1074 := rfl
  refine ⟨?_, ?_, by omega, by omega⟩
  · rw [← hj, Nat.pow_add]
    exact Nat.mul_le_mul_right _ (Nat.log2_self_le hk.ne')
  · rw [show 53 = k.log2 + 1 + j by omega, Nat.pow_add]
    exact Nat.mul_lt_mul_of_pos_right Nat.lt_log2_self (Nat.two_pow_pos j)

theorem ofNat_eq_finite :
    UnpackedFloat.ofNat .binary64 k = .finite .positive (k * 2 ^ j) (-j)
      (normal_mul_pow hk hj).pos := by
  have hcompare : compare (k : ℤ) 0 = .gt := by
    rw [compare_gt_iff_gt]
    omega
  have htarget : Format.binary64.targetExponent (totalExponent k 0) = -j := by
    show max (_ - (53 : ℤ)) (-1074) = _
    rw [totalExponent]
    omega
  have hexact := (normal_mul_pow hk hj).roundWithAccuracy_eq (c := -j) (j := 0) (by simp) .positive
  rw [Nat.pow_zero, Nat.mul_one] at hexact
  rw [← hexact]
  simp only [UnpackedFloat.ofNat, UnpackedFloat.ofInt, UnpackedFloat.normalize, hcompare,
    UnpackedFloat.round, htarget,
    decreaseExponent, zero_sub, neg_neg, Int.toNat_natCast, Nat.shiftLeft_eq]

/-- The conversion of a natural number multiplies by one, which changes nothing. -/
theorem unpack_ofNat : (Float.ofNat k).toModel.unpack = .finite .positive (k * 2 ^ j) (-j)
      (normal_mul_pow hk hj).pos := by
  have hnormal := normal_mul_pow hk hj
  have hlt : k < 2 ^ 53 := (Nat.log2_lt hk.ne').mp (by omega)
  have hfloat : k.toUInt64.toFloat.toModel.unpack = .finite .positive (k * 2 ^ j)
      (-j) hnormal.pos := by
    have hnat : k.toUInt64.toNat = k := by
      rw [UInt64.toNat_ofNat']
      omega
    show (Float.Model.pack (UnpackedFloat.ofNat .binary64 k.toUInt64.toNat)).unpack = _
    rw [hnat, ofNat_eq_finite hk hj, hnormal.unpack_pack]
  have hone : (Float.ofBits 0x3FF0000000000000).toModel.unpack = .finite .positive (2 ^ 52) (-52)
    (by decide) := rfl
  have hmul : Float.ofNat k = k.toUInt64.toFloat * Float.ofBits 0x3FF0000000000000 := by
    show Float.ofScientific k false 0 = _
    rw [Float.ofScientific, dif_pos ⟨hlt, by decide⟩]
    rfl
  rw [hmul]
  show (Float.Model.pack (UnpackedFloat.mul .binary64 k.toUInt64.toFloat.toModel.unpack
    (Float.ofBits 0x3FF0000000000000).toModel.unpack)).unpack = _
  rw [hfloat, hone]
  have hround := hnormal.roundWithAccuracy_eq (c := -j + -52) (j := 52)
    (by push_cast; omega) .positive
  show (Float.Model.pack (roundWithAccuracy .binary64 .positive (k * 2 ^ j * 2 ^ 52) (-j + -52)
    .exact)).unpack = _
  rw [hround, hnormal.unpack_pack]

end OfNat

/-- **Whole numbers up to `2 ^ 53` are doubles.** -/
theorem exists_unpack_ofNat {k : ℕ} (hk : 0 < k) (hle : k ≤ 2 ^ 53) :
    ∃ m e hm, Normal m e ∧ (m : ℚ) * 2 ^ e = k ∧
    (Float.ofNat k).toModel.unpack = .finite .positive m e hm := by
  rcases Nat.lt_or_eq_of_le hle with hlt | rfl
  · have hlog := (Nat.log2_lt hk.ne').mpr hlt
    obtain ⟨j, hj⟩ : ∃ j, k.log2 + j = 52 := ⟨52 - k.log2, by omega⟩
    refine ⟨_, _, _, normal_mul_pow hk hj, ?_, unpack_ofNat hk hj⟩
    push_cast
    rw [mul_assoc, ← zpow_natCast, ← zpow_add₀ (by norm_num), add_neg_cancel, zpow_zero, mul_one]
  · exact ⟨2 ^ 52, 1, by decide, ⟨by decide, by decide, by decide, by decide⟩, by norm_num, rfl⟩

/-- **Integers up to `2 ^ 53` are doubles**, exactly. -/
theorem exists_shape_ofInt64 {n : Int64} (hle : n.toInt.natAbs ≤ 2 ^ 53) : ∃ m e,
    shape (ofInt64 n) = .finite (n.toInt < 0) m e ∧ (m : ℚ) * 2 ^ e = n.toInt.natAbs := by
  rw [ofInt64]
  cases h : n.toInt with
  | ofNat k =>
    rw [h] at hle
    rcases Nat.eq_zero_or_pos k with rfl | hk
    · exact ⟨0, leastExponent, rfl, by simp⟩
    · obtain ⟨m, e, hm, -, hvalue, hunpack⟩ := exists_unpack_ofNat hk hle
      refine ⟨m, e, ?_, hvalue⟩
      rw [Float.ofInt, shape_eq_ofUnpacked, hunpack]
      rfl
  | negSucc k =>
    rw [h] at hle
    obtain ⟨m, e, hm, hnormal, hvalue, hunpack⟩ := exists_unpack_ofNat k.succ_pos hle
    refine ⟨m, e, ?_, hvalue⟩
    rw [Float.ofInt, shape_eq_ofUnpacked]
    show Shape.ofUnpacked (Float.Model.pack (Float.ofNat (k + 1)).toModel.unpack.neg).unpack = _
    have hneg : (UnpackedFloat.finite .positive m e hm).neg = .finite .negative m e hm := rfl
    rw [hunpack, hneg, hnormal.unpack_pack, decide_eq_true (Int.negSucc_lt_zero k)]
    rfl

theorem le_self_of_shape {x : Float} {negative : Bool} {m : ℕ} {e : ℤ}
    (h : shape x = .finite negative m e) : x ≤ x := by
  rw [shape_eq_ofUnpacked] at h
  have hcompare : x.toModel.unpack.compare x.toModel.unpack = some .eq := by
    cases hx : x.toModel.unpack with
    | notANumber => rw [hx] at h; cases h
    | infinity s => rw [hx] at h; cases h
    | zero s => rfl
    | finite s m e hm =>
      have hsame : (compare e e).then (compare m m) = .eq := by simp
      cases s with
      | negative => exact congrArg (fun o => some o.swap) hsame
      | positive => exact congrArg some hsame
  show decide (x.toModel.unpack.le x.toModel.unpack = true) = true
  rw [UnpackedFloat.le, hcompare]
  rfl

/-! ## The text of whole numbers -/

theorem digits_mul_pow {k : ℕ} (hk : 0 < k) (j : ℕ) :
    digits (k * 10 ^ j) = digits k ++ List.replicate j '0' := by
  induction j with
  | zero => simp
  | succ j ih =>
    have happend := Nat.toDigits_append_toDigits (b := 10) (by decide)
      (Nat.mul_pos hk (Nat.pow_pos (n := j) (by decide : 0 < 10)))
      (by decide : 0 < 10)
    rw [List.replicate_succ', ← List.append_assoc, ← ih, Nat.pow_succ, ← Nat.mul_assoc,
      Nat.mul_comm]
    exact happend.symm

section Whole

variable {r : Ratio} {k : ℕ} (hden : 0 < r.den) (hnum : r.num = k * r.den) (hk : 0 < k)

include hden hnum hk

theorem decimalExponent_of_whole : r.decimalExponent = Nat.log 10 k := by
  rw [Ratio.decimalExponent, hnum, if_pos (Nat.le_mul_of_pos_left _ hk), Nat.mul_div_cancel _ hden,
    digitCount_eq_log]
  simp

theorem ofRatio_of_whole {p : ℕ} (hlt : k < 10 ^ p) :
    Rounded.ofRatio p r = ⟨k * 10 ^ (p - 1 - Nat.log 10 k), Nat.log 10 k⟩ := by
  have hlog : Nat.log 10 k < p := Nat.log_lt_of_lt_pow hk.ne' hlt
  obtain ⟨j, hj⟩ : ∃ j, Nat.log 10 k + 1 + j = p := ⟨p - 1 - Nat.log 10 k, by omega⟩
  have hscale : r.scale (p - 1 - Nat.log 10 k) = ⟨k * 10 ^ j * r.den, r.den⟩ := by
    rw [show (p : ℤ) - 1 - Nat.log 10 k = Int.ofNat j by rw [Int.ofNat_eq_natCast]; omega,
      Ratio.scale, hnum, Nat.pow_eq, Nat.mul_right_comm]
  have hround : roundHalfEven (k * 10 ^ j * r.den) r.den = k * 10 ^ j := by
    simp [roundHalfEven, hden]
  have hcarry : k * 10 ^ j ≠ Nat.pow 10 p := by
    rw [Nat.pow_eq, ← hj, Nat.pow_add]
    exact (Nat.mul_lt_mul_of_pos_right (Nat.lt_pow_succ_log_self (by decide) k)
      (Nat.pow_pos (by decide))).ne
  rw [Rounded.ofRatio]
  simp only [decimalExponent_of_whole hden hnum hk, hscale, hround, if_neg hcarry]
  congr 3
  omega

end Whole

/-- Doubles that are whole numbers of at most six digits are written as integers are; larger ones
have an exponent. -/
theorem general_of_whole {x : Float} {negative : Bool} {m k : ℕ} {e : ℤ}
    (hshape : shape x = .finite negative m e) (hvalue : (m : ℚ) * 2 ^ e = k) :
    (k < 10 ^ 6 → general x = signed negative (digits k)) ∧
    (10 ^ 6 ≤ k → 'e' ∈ (general x).toList) := by
  rcases Nat.eq_zero_or_pos k with rfl | hk
  · have hm : m = 0 := by simpa [zpow_ne_zero] using hvalue
    simp [general, hshape, hm]
    rfl
  have hm : 0 < m := by
    rw [Nat.pos_iff_ne_zero]
    rintro rfl
    rw [Nat.cast_zero, zero_mul, eq_comm, Nat.cast_eq_zero] at hvalue
    omega
  have hden := (magnitude_pos hm e).2
  have hnum : (magnitude m e).num = k * (magnitude m e).den := by
    have hratio := value_magnitude m e
    rw [hvalue, Ratio.value, div_eq_iff (by positivity)] at hratio
    exact_mod_cast hratio
  have htext := general_eq hshape hm rfl
  constructor
  · intro hlt
    have hlog : Nat.log 10 k < 6 := Nat.log_lt_of_lt_pow hk.ne' hlt
    have hlength : (digits k).length = Nat.log 10 k + 1 :=
      length_digits (Nat.succ_pos _) (Nat.pow_log_le_self 10 hk.ne')
        (Nat.lt_pow_succ_log_self (by decide) k)
    have hround : Rounded.ofRatio printed.precision (magnitude m e) = _ :=
      ofRatio_of_whole hden hnum hk hlt
    have hform : ¬((Nat.log 10 k : ℤ) < printed.leastPositional ∨
        (printed.precision : ℤ) ≤ Nat.log 10 k) := by
      simp only [printed]
      omega
    obtain ⟨j, hj⟩ : ∃ j, printed.precision - 1 - Nat.log 10 k = j := ⟨_, rfl⟩
    have hplaces : (printed.precision : ℤ) - 1 - Nat.log 10 k = j := by
      simp only [printed] at hj ⊢
      omega
    have hfixed : fixed j (magnitude m e) = pointed (digits k) (List.replicate j '0') := by
      have hagain := Rounded.roundHalfEven_scale (by decide) (magnitude_pos hm e).1 hden
        hround hplaces.symm
      rw [fixed, hagain]
      simp only [hj, digits_mul_pow hk, hlength, List.length_append, List.length_replicate]
      rw [show j + 1 - (Nat.log 10 k + 1 + j) = 0 by omega, Nat.zero_add, Nat.add_sub_cancel,
        ← hlength, List.replicate_zero, List.nil_append, List.take_left, List.drop_left]
    have hzeros : joinPoint (digits k) (List.replicate j '0') = digits k := by
      simp [joinPoint, trimEnd]
    rw [htext, hround, if_neg hform]
    simp only [hplaces, Int.toNat_natCast, hfixed]
    rw [trimFraction_pointed negative (notMem_of_isDigit (fun _ => isDigit_of_mem_digits) rfl)
      (by simp), hzeros]
    rfl
  · intro hle
    have hlog : 6 ≤ Nat.log 10 k := Nat.le_log_of_pow_le (by decide) hle
    have hexponent : (printed.precision : ℤ) ≤
        (Rounded.ofRatio printed.precision (magnitude m e)).exponent := by
      have hplace := Rounded.exponent_ofRatio printed.precision (magnitude m e)
      rw [decimalExponent_of_whole hden hnum hk] at hplace
      simp only [printed] at hplace ⊢
      omega
    rw [htext, if_pos (.inr hexponent)]
    simp

end Stacklet.Number

namespace Stacklet.BinOp

open Value Number

theorem toText_widened {n : Int64} (h : n.toInt.natAbs ≤ 2 ^ 53) :
    toText (.int n) = toText (.double (ofInt64 n)) ↔ n.toInt.natAbs < 10 ^ 6 := by
  obtain ⟨m, e, hshape, hvalue⟩ := exists_shape_ofInt64 h
  obtain ⟨hsmall, hlarge⟩ := general_of_whole hshape hvalue
  constructor
  · intro htext
    by_contra hle
    have hmem := hlarge (Nat.le_of_not_lt hle)
    rw [← show decimal n.toInt = general (ofInt64 n) from htext] at hmem
    exact notMem_decimal rfl (by decide) n.toInt hmem
  · intro hlt
    have hint : decimal n.toInt = signed (n.toInt < 0) (digits n.toInt.natAbs) :=
      String.toList_inj.mp (by rw [toList_decimal, signed, String.toList_ofList])
    exact hint.trans (hsmall hlt).symm

/-- **An integer and its double** hold the same number, and neither is larger. As equality compares
texts, they count as equal if and only if the integer has at most six digits. -/
theorem apply_widened {n : Int64} (h : n.toInt.natAbs ≤ 2 ^ 53) :
    let r (op : BinOp) := op.apply (.int n) (.double (ofInt64 n))
    (shape (ofInt64 n)).value? = some (n.toInt : ℚ) ∧ r le = .int 1 ∧ r ge = .int 1 ∧
      (n.toInt.natAbs < 10 ^ 6 → r eq = .int 1 ∧ r ne = .int 0) ∧
      (10 ^ 6 ≤ n.toInt.natAbs → r eq = .int 0 ∧ r ne = .int 1) := by
  intro r
  obtain ⟨m, e, hshape, hvalue⟩ := exists_shape_ofInt64 h
  have hle : ofInt64 n ≤ ofInt64 n := le_self_of_shape hshape
  have htext := toText_widened h
  have heq : r eq = .ofBool (toText (.int n) == toText (.double (ofInt64 n))) := rfl
  have hne : r ne = .ofBool (toText (.int n) != toText (.double (ofInt64 n))) := rfl
  have hcompare : ofBool (decide (ofInt64 n ≤ ofInt64 n)) = .int 1 := by simp [hle, ofBool]
  refine ⟨?_, hcompare, hcompare, fun hlt => ?_, fun hge => ?_⟩
  · rw [hshape, Shape.value?, hvalue, Nat.cast_natAbs, Int.cast_abs]
    rcases lt_or_ge n.toInt 0 with hneg | hpos
    · rw [abs_of_neg (by exact_mod_cast hneg)]
      simp [hneg]
    · rw [abs_of_nonneg (by exact_mod_cast hpos)]
      simp [not_lt.mpr hpos]
  · rw [heq, hne, htext.mpr hlt]
    simp [ofBool]
  · have hdiff := (not_congr htext).mpr (Nat.not_lt.mpr hge)
    simp [heq, hne, hdiff, ofBool]

/-- At `2 ^ 53`, the last number for which it says so. -/
theorem lastWhole_apply_widened : (9007199254740992 : Int64).toInt.natAbs ≤ 2 ^ 53 ∧
    10 ^ 6 ≤ (9007199254740992 : Int64).toInt.natAbs ∧
    eq.apply (.int 9007199254740992) (.double (ofInt64 9007199254740992)) = .int 0 :=
  ⟨by decide, by decide, ((apply_widened (n := 9007199254740992) (by decide)).2.2.2.2
    (by decide)).1⟩

/-- A million and its double are written differently, so that they do not count as equal. -/
theorem exists_unequal_to_widened : ¬∀ n : Int64, n.toInt.natAbs ≤ 2 ^ 53 →
    eq.apply (.int n) (.double (ofInt64 n)) = .int 1 ∧
      ne.apply (.int n) (.double (ofInt64 n)) = .int 0 := by
  intro h
  have htext := (not_congr (toText_widened (n := 1000000) (by decide))).mpr (by decide)
  have heq : eq.apply (.int 1000000) (.double (ofInt64 1000000)) = .int 0 := by
    simp [apply, htext, ofBool]
  have hone := (h 1000000 (by decide)).1
  rw [heq] at hone
  cases hone

end Stacklet.BinOp
