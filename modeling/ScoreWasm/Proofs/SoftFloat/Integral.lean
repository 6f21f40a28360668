import ScoreWasm.Proofs.SoftFloat.Operands

/-!
# Rounding to integral numbers

Below one, the result is zero or one.  Otherwise the integers around a number are found by clearing the bits of its
pattern that stand for the fraction, and by adding one above them; a carry runs into the exponent field, which is
right.
-/

namespace ScoreWasm.SoftFloat

open Wasm Code BitVec
open Ieee (nearestEven roundHalfEven)

/-! ### Integers -/

/-- The integer that a number is rounded to. -/
def Rounding.whole (x : ℚ) : Rounding → ℤ
  | .ceil => ⌈x⌉
  | .floor => ⌊x⌋
  | .trunc => if x < 0 then ⌈x⌉ else ⌊x⌋
  | .nearest => if x < 0 then -nearestEven (-x) else nearestEven x

/-- The pattern of a number rounded to an integral one. -/
def integralOf (w : Width) (mode : Rounding) (x : ℕ) : ℕ :=
  match (format w).decode x with
  | .nan _ _ => (format w).canonicalNaN
  | .inf _ => x
  | .finite neg m e =>
    if ⌊(m : ℚ) * 2 ^ e⌋₊ = (m : ℚ) * 2 ^ e then x
    else (format w).signed neg ((format w).magnitude (mode.whole ((if neg then -1 else 1) * (m * 2 ^ e))).natAbs)

/-- Whether a magnitude with a sign goes up whatever its fraction is. -/
def Rounding.outward (neg : Bool) : Rounding → Bool
  | .ceil => !neg
  | .floor => neg
  | .trunc | .nearest => false

/-- The integer a magnitude is rounded to. -/
def Rounding.magnitude (neg : Bool) (x : ℚ) (mode : Rounding) : ℕ :=
  if mode = .nearest then nearestEven x else if mode.outward neg then ⌈x⌉₊ else ⌊x⌋₊

theorem Rounding.natAbs_whole (mode : Rounding) (neg : Bool) {x : ℚ} (hx : 0 < x) :
    (mode.whole ((if neg then -1 else 1) * x)).natAbs = mode.magnitude neg x := by
  have hfloor : ⌊x⌋.natAbs = ⌊x⌋₊ := by
    rw [← Int.natCast_floor_eq_floor hx.le, Int.natAbs_natCast]
  have hceil : ⌈x⌉.natAbs = ⌈x⌉₊ := by
    rw [← Int.natCast_ceil_eq_ceil hx.le, Int.natAbs_natCast]
  cases neg <;> cases mode <;>
    simp [whole, magnitude, outward, hfloor, hceil, Int.ceil_neg, Int.floor_neg, hx, hx.le, not_lt.mpr]

/-- Whether the part of a pattern that stands for the integer goes up. -/
def Rounding.Up (mode : Rounding) (neg : Bool) (n d : ℕ) : Prop :=
  mode.outward neg = true ∨ mode = .nearest ∧ (d < 2 * (n % d) ∨ 2 * (n % d) = d ∧ n / d % 2 = 1)

instance (mode : Rounding) (neg : Bool) (n d : ℕ) : Decidable (mode.Up neg n d) := by
  unfold Rounding.Up
  infer_instance

/-- What a quotient with a remainder is rounded to. -/
theorem Rounding.magnitude_div (mode : Rounding) (neg : Bool) {n k : ℕ} (h : n % 2 ^ k ≠ 0) :
    mode.magnitude neg ((n : ℚ) / (2 ^ k : ℕ)) = n / 2 ^ k + if mode.Up neg n (2 ^ k) then 1 else 0 := by
  have hpos := Nat.two_pow_pos k
  have hceil : ⌈(n : ℚ) / (2 ^ k : ℕ)⌉₊ = n / 2 ^ k + 1 := by
    have hn := Nat.div_add_mod n (2 ^ k)
    rw [Nat.ceil_eq_iff (Nat.succ_ne_zero _), Nat.succ_sub_one, lt_div_iff₀ (mod_cast hpos), div_le_iff₀ (mod_cast hpos)]
    norm_cast
    rw [Nat.succ_mul, Nat.mul_comm (n / 2 ^ k)]
    omega
  have hnearest := Ieee.roundHalfEven_eq n hpos
  unfold magnitude
  rw [← hnearest, hceil, Nat.floor_div_eq_div]
  cases mode <;> simp [Up, outward, roundHalfEven] <;> grind

/-! ### Patterns of integers -/

/-- The pattern of an integer, given how far it is shifted until its leading bit is the hidden one. -/
theorem magnitude_integer (w : Width) {k n : ℕ} (hk : k ≤ (format w).frac)
    (hlow : 2 ^ (format w).frac ≤ n * 2 ^ k) (hhigh : n * 2 ^ k ≤ 2 * 2 ^ (format w).frac) :
    (format w).magnitude n = ((format w).bias + (format w).frac - k - 1) * 2 ^ (format w).frac + n * 2 ^ k := by
  have hbias : 0 < (format w).bias := by cases w <;> decide
  have htop : (format w).bias + (format w).frac + 1 < (format w).topExp := by cases w <;> decide
  obtain ⟨j, hj, m, hm, hsum⟩ : ∃ j ≤ 1, ∃ m < 2 ^ (format w).frac, (m + 2 ^ (format w).frac) * 2 ^ j = n * 2 ^ k := by
    obtain heq | hlt := hhigh.eq_or_lt
    · exact ⟨1, le_refl _, 0, Nat.two_pow_pos _, by omega⟩
    · exact ⟨0, by omega, n * 2 ^ k - 2 ^ (format w).frac, by omega, by omega⟩
  have hself := Ieee.magnitude_self (format w) (e := (format w).bias + (format w).frac - k + j) (by omega) hm
  have hvalue : ((m + 2 ^ (format w).frac : ℕ) : ℚ) *
      2 ^ ((format w).minExp + ((format w).bias + (format w).frac - k + j - 1 : ℕ)) = n := by
    have hexp : (format w).minExp + ((format w).bias + (format w).frac - k + j - 1 : ℕ) = j - k := by
      unfold Ieee.Format.minExp
      omega
    rw [hexp, zpow_sub₀ two_ne_zero, zpow_natCast, zpow_natCast, ← mul_div_assoc, div_eq_iff (by positivity)]
    exact_mod_cast hsum
  rw [if_neg (by omega), hvalue] at hself
  rw [hself]
  obtain ⟨e, he⟩ : ∃ e, (format w).bias + (format w).frac - k = e + 1 := Nat.exists_eq_add_of_le' (by omega)
  rw [he, Nat.add_sub_cancel, ← hsum, Nat.add_mul (e + 1), Nat.succ_mul]
  obtain rfl | rfl := Nat.le_one_iff_eq_zero_or_eq_one.mp hj <;> omega

/-! ### Numbers with a fraction -/

section Fraction

variable {w : Width} {x : BitVec 64} {k : ℕ}

/-- A pattern is its significand and a multiple of twice the unit. -/
theorem toNat_eq_sig (hx : IsPattern w x) (hk : k ≤ (format w).frac)
    (he : expOf w x + k = (format w).bias + (format w).frac) : ∃ c, (negOf w x).toNat * 2 ^ signPlace w +
      ((format w).bias + (format w).frac - k - 1) * 2 ^ (format w).frac = 2 ^ k * (2 * c) ∧
      x.toNat = 2 ^ k * (2 * c) + sigOf w x := by
  have hbias : (format w).bias = 2 * ((format w).bias / 2) + 1 := by cases w <;> decide
  have hplace : 2 ^ signPlace w = 2 ^ k * (2 * 2 ^ (signPlace w - k - 1)) := by
    rw [← Nat.pow_succ', ← Nat.pow_add]
    congr 1
    cases w <;> simp [signPlace, format, Ieee.binary32, Ieee.binary64] at * <;> omega
  -- For numbers below two the exponent field is the unit of the pattern, and it is odd as that of one is.
  obtain ⟨c, hc⟩ : ∃ c, (expOf w x - 1) * 2 ^ (format w).frac = 2 ^ k * (2 * c) := by
    obtain rfl | hlt := hk.eq_or_lt
    · exact ⟨(format w).bias / 2, by rw [Nat.mul_comm]; congr 1; omega⟩
    · have hfrac : 2 ^ (format w).frac = 2 ^ k * (2 * 2 ^ ((format w).frac - k - 1)) := by
        rw [← Nat.pow_succ', ← Nat.pow_add]
        congr 1
        omega
      exact ⟨(expOf w x - 1) * 2 ^ ((format w).frac - k - 1), by rw [hfrac]; ring⟩
  have hbase : (negOf w x).toNat * 2 ^ signPlace w + (expOf w x - 1) * 2 ^ (format w).frac =
      2 ^ k * (2 * ((negOf w x).toNat * 2 ^ (signPlace w - k - 1) + c)) := by
    rw [hplace, hc]
    ring
  have hdiv := Nat.div_add_mod x.toNat (2 ^ signPlace w)
  rw [← negOf_toNat w x hx, toNat_mod w x, Nat.mul_comm] at hdiv
  obtain ⟨e, hexp⟩ : ∃ e, expOf w x = e + 1 := Nat.exists_eq_add_of_le' (by omega)
  rw [hexp, Nat.add_sub_cancel] at hbase
  rw [hexp, Nat.succ_mul] at hdiv
  refine ⟨(negOf w x).toNat * 2 ^ (signPlace w - k - 1) + c, ?_, ?_⟩
  · rw [← hbase, show (format w).bias + (format w).frac - k - 1 = e by omega]
  · rw [← hbase, sigOf, Ieee.Format.sigOf, if_neg (show ¬expOf w x = 0 by omega)]
    show _ = _ + (fracOf w x + _)
    omega

theorem value_eq_div (hk : k ≤ (format w).frac) (he : expOf w x + k = (format w).bias + (format w).frac) :
    (sigOf w x : ℚ) * 2 ^ (format w).lastOf x.toNat = sigOf w x / (2 ^ k : ℕ) := by
  have hbias : 0 < (format w).bias := by cases w <;> decide
  have hlast : (format w).lastOf x.toNat = -(k : ℤ) := by
    show 1 - ((format w).bias : ℤ) - (format w).frac + (expOf w x - 1 : ℕ) = _
    omega
  rw [hlast, zpow_neg, zpow_natCast, div_eq_mul_inv]
  push_cast
  rfl

theorem integralOf_large (hx : IsPattern w x) (mode : Rounding) (hk : k ≤ (format w).frac)
    (he : expOf w x + k = (format w).bias + (format w).frac) : integralOf w mode x.toNat =
      if x.toNat % 2 ^ k = 0 then x.toNat
      else (x.toNat / 2 ^ k + if mode.Up (negOf w x) x.toNat (2 ^ k) then 1 else 0) * 2 ^ k := by
  have hpos := Nat.two_pow_pos k
  obtain ⟨c, hbase, hpattern⟩ := toNat_eq_sig hx hk he
  have hmod : x.toNat % 2 ^ k = sigOf w x % 2 ^ k := by rw [hpattern, Nat.mul_add_mod]
  have hdiv : x.toNat / 2 ^ k = 2 * c + sigOf w x / 2 ^ k := by rw [hpattern, Nat.mul_add_div hpos]
  have htop : 0 < (format w).bias ∧ (format w).bias + (format w).frac < (format w).topExp := by cases w <;> decide
  have hdecode : (format w).decode x.toNat = .finite (negOf w x) (sigOf w x) ((format w).lastOf x.toNat) := by
    rw [Ieee.Format.decode_eq, if_neg (show expOf w x ≠ _ by omega)]
  unfold integralOf
  rw [hdecode]
  dsimp only
  rw [value_eq_div hk he, Nat.floor_div_eq_div, hmod]
  have hsig := Nat.div_add_mod (sigOf w x) (2 ^ k)
  have hwhole : ((sigOf w x / 2 ^ k : ℕ) : ℚ) = sigOf w x / (2 ^ k : ℕ) ↔ sigOf w x % 2 ^ k = 0 := by
    rw [eq_div_iff (by positivity), ← Nat.cast_mul, Nat.cast_inj, Nat.mul_comm]
    omega
  simp only [hwhole]
  split
  next => rfl
  next h =>
    have hup : mode.Up (negOf w x) (sigOf w x) (2 ^ k) ↔ mode.Up (negOf w x) x.toNat (2 ^ k) := by
      unfold Rounding.Up
      rw [hmod, hdiv, Nat.mul_add_mod]
    have hunit : 2 ^ (format w).frac = 2 ^ k * 2 ^ ((format w).frac - k) := by rw [← Nat.pow_add, Nat.add_sub_cancel' hk]
    have hlow : 2 ^ ((format w).frac - k) ≤ sigOf w x / 2 ^ k := by
      rw [Nat.le_div_iff_mul_le hpos, Nat.mul_comm, ← hunit, sigOf, Ieee.Format.sigOf, if_neg (show ¬expOf w x = 0 by omega)]
      exact Nat.le_add_left _ _
    have hhigh : sigOf w x / 2 ^ k < 2 * 2 ^ ((format w).frac - k) := by
      rw [Nat.div_lt_iff_lt_mul hpos, Nat.mul_assoc, Nat.mul_comm _ (2 ^ k), ← hunit]
      exact (format w).sigOf_lt x.toNat
    have hpos : (0 : ℚ) < sigOf w x / (2 ^ k : ℕ) := by
      have : sigOf w x ≠ 0 := fun h0 => h (by rw [h0, Nat.zero_mod])
      positivity
    rw [Rounding.natAbs_whole mode _ hpos, Rounding.magnitude_div mode _ h, signed_eq]
    have hle : (if mode.Up (negOf w x) x.toNat (2 ^ k) then 1 else 0) ≤ 1 := by split <;> omega
    simp only [hup]
    generalize (if mode.Up (negOf w x) x.toNat (2 ^ k) then 1 else 0) = up at hle
    rw [magnitude_integer w hk, ← Nat.add_assoc, hbase, hdiv]
    · ring
    · rw [hunit, Nat.mul_comm]
      exact Nat.mul_le_mul_right _ (by omega)
    · rw [hunit, Nat.mul_left_comm, Nat.mul_comm]
      exact Nat.mul_le_mul_left _ (by omega)

theorem sigOf_eq_zero (w : Width) (x : BitVec 64) : sigOf w x = 0 ↔ expOf w x * 2 ^ (format w).frac + fracOf w x = 0 := by
  unfold sigOf Ieee.Format.sigOf
  split
  next h => simp [h]
  next h => simp [h]

theorem value_small (h0 : sigOf w x ≠ 0) (he : expOf w x < (format w).bias) :
    (0 : ℚ) < sigOf w x * 2 ^ (format w).lastOf x.toNat ∧ (sigOf w x : ℚ) * 2 ^ (format w).lastOf x.toNat < 1 ∧
      (1 < 2 * ((sigOf w x : ℚ) * 2 ^ (format w).lastOf x.toNat) ↔ expOf w x = (format w).bias - 1 ∧ fracOf w x ≠ 0) := by
  have hbias : 2 < (format w).bias := by cases w <;> decide
  have hlt : (sigOf w x : ℚ) < 2 * 2 ^ (format w).frac := mod_cast (format w).sigOf_lt x.toNat
  obtain ⟨k, hk0, hk⟩ : ∃ k : ℕ, (k = 0 ↔ expOf w x = (format w).bias - 1) ∧
      (format w).lastOf x.toNat = -((format w).frac : ℤ) - 1 - k := by
    refine ⟨(format w).bias - 1 - max (expOf w x) 1, by omega, ?_⟩
    show 1 - ((format w).bias : ℤ) - (format w).frac + (expOf w x - 1 : ℕ) = _
    omega
  have hscale : (2 : ℚ) ^ (format w).lastOf x.toNat = (2 * 2 ^ (format w).frac * 2 ^ k)⁻¹ := by
    rw [hk, zpow_sub₀ two_ne_zero, zpow_sub₀ two_ne_zero, zpow_neg, zpow_natCast, zpow_natCast]
    field_simp
  rw [hscale, ← div_eq_mul_inv]
  have hunit : (2 : ℚ) * 2 ^ (format w).frac ≤ 2 * 2 ^ (format w).frac * 2 ^ k :=
    le_mul_of_one_le_right (by positivity) (one_le_pow₀ one_le_two)
  refine ⟨by positivity, (div_lt_one (by positivity)).mpr (lt_of_lt_of_le hlt hunit), ?_⟩
  rw [← mul_div_assoc, one_lt_div (by positivity), mul_assoc, mul_lt_mul_iff_right₀ two_pos, ← hk0]
  norm_cast at hlt ⊢
  obtain rfl | hpos := Nat.eq_zero_or_pos k
  · rw [Nat.pow_zero, Nat.mul_one, sigOf, Ieee.Format.sigOf, if_neg (show ¬expOf w x = 0 by omega)]
    show 2 ^ (format w).frac < fracOf w x + _ ↔ _
    omega
  · have hpow := Nat.mul_le_mul_left (2 ^ (format w).frac) (Nat.pow_le_pow_right two_pos hpos)
    omega

theorem toNat_of_zero (hx : IsPattern w x) (h : sigOf w x = 0) : x.toNat = (format w).signed (negOf w x) 0 := by
  have hdiv := Nat.div_add_mod x.toNat (2 ^ signPlace w)
  rw [← negOf_toNat w x hx, toNat_mod w x, (sigOf_eq_zero w x).mp h, Nat.mul_comm] at hdiv
  rw [signed_eq]
  exact hdiv.symm

/-- A number of magnitude below one is rounded to zero or one. -/
theorem integralOf_small (hx : IsPattern w x) (mode : Rounding) (he : expOf w x < (format w).bias) :
    integralOf w mode x.toNat = (format w).signed (negOf w x) (if sigOf w x ≠ 0 ∧ (mode.outward (negOf w x) = true ∨
      mode = .nearest ∧ expOf w x = (format w).bias - 1 ∧ fracOf w x ≠ 0) then onePattern w else 0) := by
  have htop : (format w).bias < (format w).topExp := by cases w <;> decide
  have hone : (format w).magnitude (1 : ℕ) = onePattern w := by
    rw [magnitude_integer w (le_refl _) (by omega) (by omega), ← Nat.add_mul, onePattern]
    congr 1
    omega
  have hzero : (format w).magnitude (0 : ℕ) = 0 := if_pos Nat.cast_zero
  unfold integralOf
  rw [Ieee.Format.decode_eq, if_neg (show expOf w x ≠ _ by omega)]
  dsimp only
  by_cases h0 : sigOf w x = 0
  · rw [if_pos (by simp [h0]), if_neg (fun h => h.1 h0)]
    exact toNat_of_zero hx h0
  obtain ⟨hpos, hlt, hhalf⟩ := value_small h0 he
  generalize (sigOf w x : ℚ) * 2 ^ (format w).lastOf x.toNat = a at *
  have hfloor : ⌊a⌋₊ = 0 := Nat.floor_eq_zero.mpr hlt
  have hceil : ⌈a⌉₊ = 1 := (Nat.ceil_eq_iff one_ne_zero).mpr ⟨by simpa using hpos, by simpa using hlt.le⟩
  have hnearest : nearestEven a = if 1 < 2 * a then 1 else 0 := by
    unfold nearestEven
    rw [hfloor, Nat.cast_zero, sub_zero]
    split
    · rw [if_neg (by linarith)]
    · rfl
  have hround : mode.magnitude (negOf w x) a = if mode.outward (negOf w x) = true ∨
      mode = .nearest ∧ expOf w x = (format w).bias - 1 ∧ fracOf w x ≠ 0 then 1 else 0 := by
    rw [Rounding.magnitude, hfloor, hceil, hnearest]
    generalize negOf w x = neg
    cases neg <;> cases mode <;> simp [Rounding.outward, hhalf]
  rw [if_neg (by rw [hfloor]; simpa using hpos.ne), Rounding.natAbs_whole mode _ hpos, hround]
  simp only [ne_eq, h0, not_false_eq_true, true_and]
  split
  · rw [hone]
  · rw [hzero]

end Fraction

/-! ### The routine -/

section Words

variable {n k : ℕ}

theorem ones_above (k : ℕ) : BitVec.ofNat 64 (2 ^ k - 1) ^^^ .ofInt 64 ((-1 : ℤ).bmod (2 ^ 64)) = BitVec.allOnes 64 <<< k := by
  have hones : BitVec.ofInt 64 ((-1 : ℤ).bmod (2 ^ 64)) = .allOnes 64 := by decide
  rw [hones]
  refine eq_of_getLsbD_eq fun i hi => ?_
  rw [getLsbD_xor, getLsbD_ofNat, getLsbD_allOnes, getLsbD_shiftLeft, getLsbD_allOnes, Nat.testBit_two_pow_sub_one]
  grind

theorem clear_word (hn : n < 2 ^ 64) : .ofNat 64 n &&& (.ofNat 64 (2 ^ k - 1) ^^^ .ofInt 64 ((-1 : ℤ).bmod (2 ^ 64))) =
    BitVec.ofNat 64 (n / 2 ^ k * 2 ^ k) := by
  rw [ones_above, ← shiftLeft_ushiftRight, ofNat_shr hn, ofNat_shl]

theorem mask_word (hk : k < 64) {e c : ℕ} (h : e + k = c) :
    literal 1 <<< ((literal c - .ofNat 64 e).toNat % 64) - literal 1 = .ofNat 64 (2 ^ k - 1) := by
  have hdist : literal c - .ofNat 64 e = .ofNat 64 k := by
    rw [← h, literal_eq, Nat.add_comm, ofNat_add]
    exact add_sub_cancel _ _
  have hmod : (BitVec.ofNat 64 k).toNat % 64 = k := by
    rw [toNat_ofNat]
    omega
  rw [hdist, hmod, literal_eq, ofNat_shl, Nat.one_mul]
  exact ofNat_sub_ofNat_of_le _ 1 (by decide : 1 < 2 ^ 64) Nat.one_le_two_pow

theorem fracField_iff (w : Width) (x : BitVec 64) :
    (if (x &&& literal (fracMask w) != literal 0) = true then 1 else 0 : BitVec 32) ≠ 0 ↔ ¬fracOf w x = 0 := by
  rw [← nonzero_iff, fracMask, and_literal]
  rfl

theorem unit_word (k : ℕ) : BitVec.ofNat 64 (2 ^ k - 1) + literal 1 = .ofNat 64 (2 ^ k) := by
  rw [literal_eq, ofNat_add_ofNat, Nat.sub_add_cancel Nat.one_le_two_pow]

theorem odd_iff (q : ℕ) (hk : k < 64) :
    (if (BitVec.ofNat 64 (q * 2 ^ k) &&& (.ofNat 64 (2 ^ k - 1) + literal 1) != literal 0) = true then 1 else 0 : BitVec 32) ≠ 0 ↔
      q % 2 = 1 := by
  have hlt : 2 ^ k < 2 ^ 64 := Nat.pow_lt_pow_right (by decide) hk
  have hbit : q * 2 ^ k &&& 2 ^ k = q % 2 * 2 ^ k := by
    rw [← Nat.shiftLeft_eq, ← Nat.one_shiftLeft, ← Nat.shiftLeft_and_distrib, Nat.and_one_is_mod,
      Nat.shiftLeft_eq, Nat.one_shiftLeft]
  rw [unit_word, ← ofNat_and, hbit, ne_literal _ (by decide)]
  · rcases Nat.mod_two_eq_zero_or_one q with h | h <;> simp [h]
  · rcases Nat.mod_two_eq_zero_or_one q with h | h <;> rw [h] <;> omega

theorem nearest_iff (hk : 0 < k) (hk' : k < 64) (x : BitVec 64) (neg : Bool) :
    (if ((BitVec.ofNat 64 (2 ^ k - 1) + literal 1) >>> ((literal 1).toNat % 64)).ult (x &&& .ofNat 64 (2 ^ k - 1)) = true then 1
      else 0 : BitVec 32) |||
      ((if (x &&& .ofNat 64 (2 ^ k - 1) == (BitVec.ofNat 64 (2 ^ k - 1) + literal 1) >>> ((literal 1).toNat % 64)) = true then 1
        else 0) &&&
      (if (BitVec.ofNat 64 (x.toNat / 2 ^ k * 2 ^ k) &&& (.ofNat 64 (2 ^ k - 1) + literal 1) != literal 0) = true then 1 else 0)) ≠ 0 ↔
      Rounding.Up .nearest neg x.toNat (2 ^ k) := by
  obtain ⟨j, rfl⟩ := Nat.exists_eq_add_of_lt hk
  rw [Nat.zero_add] at *
  have hlt : 2 ^ (j + 1) < 2 ^ 64 := Nat.pow_lt_pow_right (by decide) hk'
  have hhalf : (BitVec.ofNat 64 (2 ^ (j + 1) - 1) + literal 1) >>> ((literal 1).toNat % 64) = literal (2 ^ j) := by
    rw [unit_word, toNat_literal (by decide), ofNat_shr hlt, literal_eq, Nat.pow_succ, Nat.pow_one, Nat.mul_div_cancel _ two_pos]
  have hmod : x.toNat % 2 ^ (j + 1) < 2 ^ 64 := lt_trans (Nat.mod_lt _ (Nat.two_pow_pos _)) hlt
  rw [hhalf, ← literal_eq, and_literal, literal_eq (2 ^ _ - 1)]
  refine (either_iff (gtU_literal hmod (by omega)) (both_iff (eq_literal hmod (by omega)) (odd_iff _ hk'))).trans ?_
  simp only [Rounding.Up, Rounding.outward, Bool.false_eq_true, true_and, false_or]
  omega

end Words

variable {σ : Type} {env : Env σ} {index : Routine → Nat} {w : Width} {x : BitVec 64}

theorem does_nat (hrules : env.Obeys integerRules) (n : ℕ) (locals : List Value) :
    Does env index false (nat n) [] locals (.on [.i64 (.ofNat 64 n)] locals) := by
  rw [← literal_eq]
  exact .eval hrules rfl

section Small

variable (hrules : env.Obeys integerRules)

include hrules

theorem does_roundSmall (hx : IsPattern w x) (mode : Rounding) (he : expOf w x < (format w).bias)
    {v m d h : Value} : Does env index false (roundSmall w mode) []
      [v, .i64 x, .i64 (.ofNat 64 (expOf w x)), .i64 (.ofNat 64 (negOf w x).toNat), m, d, h]
      (.on [.i64 (.ofNat 64 (integralOf w mode x.toNat))]
        [v, .i64 x, .i64 (.ofNat 64 (expOf w x)), .i64 (.ofNat 64 (negOf w x).toNat), m, d, h]) := by
  have hlt := expOf_lt w x
  have hone : onePattern w < 2 ^ signPlace w := by cases w <;> decide
  have hnonzero : expOf w x = (format w).bias - 1 ∧ ¬fracOf w x = 0 → sigOf w x ≠ 0 := fun h => by
    rw [Ne, sigOf_eq_zero]
    omega
  rw [integralOf_small hx mode he]
  cases mode with
  | trunc =>
    rw [if_neg (by simp [Rounding.outward]), ← signed_word w _ (by positivity)]
    exact .eval hrules rfl
  | nearest =>
    refine .choose _ hrules rfl (both_iff (eq_literal (by omega) (by cases w <;> decide)) (fracField_iff w x)) rfl rfl (fun h => ?_)
      fun h => ?_
    · rw [if_pos ⟨hnonzero h, .inr ⟨rfl, h⟩⟩, ← signed_word w _ hone]
      exact .eval hrules rfl
    · rw [if_neg (by simpa [Rounding.outward] using fun _ => h), ← signed_word w _ (by positivity)]
      exact .eval hrules rfl
  | floor | ceil =>
    refine .choose _ hrules rfl (isZero_iff w x) rfl rfl (fun h => ?_) fun h => ?_
    · rw [if_neg (fun hn => hn.1 h), ← toNat_of_zero hx h, ← word_eq]
      exact .eval hrules rfl
    · simp only [Rounding.outward, ne_eq, h, not_false_eq_true, true_and]
      refine .choose _ hrules rfl (positive_iff (negOf w x)) rfl rfl (fun hpos => ?_) fun hneg => ?_
      · rw [hpos]
        exact does_nat hrules _ _
      · rw [Bool.eq_true_of_not_eq_false hneg]
        exact does_nat hrules _ _

end Small

section Large

/-- The locals once the mask of the fraction is known. -/
abbrev maskLocals (x : BitVec 64) (neg : Bool) (k : ℕ) (v e d h : Value) : List Value :=
  [v, .i64 x, e, .i64 (.ofNat 64 neg.toNat), .i64 (.ofNat 64 (2 ^ k - 1)), d, h]

variable (hrules : env.Obeys integerRules) {k n : ℕ} {neg : Bool} {v e d h : Value}

include hrules

theorem does_clearFraction {c : Code} (hn : n < 2 ^ 64)
    (hc : Does env index false c [] (maskLocals x neg k v e d h) (.on [.i64 (.ofNat 64 n)] (maskLocals x neg k v e d h))) :
    Does env index false (clearFraction c) [] (maskLocals x neg k v e d h)
      (.on [.i64 (.ofNat 64 (n / 2 ^ k * 2 ^ k))] (maskLocals x neg k v e d h)) := by
  rw [← clear_word hn]
  exact hc.append (.eval hrules rfl)

/-- The integer on the other side, if a test says so. -/
theorem does_away (hfrac : x.toNat % 2 ^ k ≠ 0) (hsum : x.toNat + 2 ^ k ≤ 2 ^ 64) {test : Code} {P : Prop} [Decidable P]
    {b : BitVec 32} (htest : evaluate integerRules test.ops [] (maskLocals x neg k v e d h) =
      some ([.i32 b], maskLocals x neg k v e d h)) (hb : b ≠ 0 ↔ P) :
    Does env index false (clearFraction (choose test (var 1 + var 4) (var 1))) [] (maskLocals x neg k v e d h)
      (.on [.i64 (.ofNat 64 ((x.toNat / 2 ^ k + if P then 1 else 0) * 2 ^ k))] (maskLocals x neg k v e d h)) := by
  have hpos := Nat.two_pow_pos k
  have hdiv := Nat.div_add_mod x.toNat (2 ^ k)
  have hup : (x.toNat + if P then 2 ^ k - 1 else 0) / 2 ^ k = x.toNat / 2 ^ k + if P then 1 else 0 := by
    split
    · rw [Nat.div_eq_iff hpos, Nat.add_mul, Nat.mul_comm]
      omega
    · rfl
  rw [← hup]
  refine does_clearFraction hrules (by split <;> omega) ?_
  refine .choose P hrules htest hb rfl rfl (fun hP => ?_) fun hP => ?_
  · rw [if_pos hP, ofNat_add, ← word_eq]
    exact .eval hrules rfl
  · rw [if_neg hP, Nat.add_zero, ← word_eq]
    exact .eval hrules rfl

theorem does_roundLarge (mode : Rounding) (hk : 0 < k) (hk' : k < 64) (hfrac : x.toNat % 2 ^ k ≠ 0)
    (hsum : x.toNat + 2 ^ k ≤ 2 ^ 64) : ∃ d' h', Does env index false (roundLarge mode) [] (maskLocals x neg k v e d h)
      (.on [.i64 (.ofNat 64 ((x.toNat / 2 ^ k + if mode.Up neg x.toNat (2 ^ k) then 1 else 0) * 2 ^ k))]
        (maskLocals x neg k v e d' h')) := by
  have hself : Does env index false (var 1) [] (maskLocals x neg k v e d h)
      (.on [.i64 (.ofNat 64 x.toNat)] (maskLocals x neg k v e d h)) := by
    rw [← word_eq]
    exact .eval hrules rfl
  cases mode with
  | trunc =>
    rw [if_neg (by simp [Rounding.Up, Rounding.outward]), Nat.add_zero]
    exact ⟨d, h, does_clearFraction hrules x.isLt hself⟩
  | floor =>
    have hup : Rounding.Up .floor neg x.toNat (2 ^ k) ↔ neg = true := by simp [Rounding.Up, Rounding.outward]
    simp only [hup]
    exact ⟨d, h, does_away hrules hfrac hsum rfl (by cases neg <;> decide)⟩
  | ceil =>
    have hup : Rounding.Up .ceil neg x.toNat (2 ^ k) ↔ neg = false := by simp [Rounding.Up, Rounding.outward]
    simp only [hup]
    exact ⟨d, h, does_away hrules hfrac hsum rfl (positive_iff neg)⟩
  | nearest =>
    refine ⟨.i64 (.ofNat 64 (x.toNat / 2 ^ k * 2 ^ k)), .i64 ((.ofNat 64 (2 ^ k - 1) + literal 1) >>> ((literal 1).toNat % 64)), ?_⟩
    refine .append (.append (does_clearFraction hrules x.isLt hself) (.eval hrules rfl)) ?_
    refine .choose (Rounding.Up .nearest neg x.toNat (2 ^ k)) hrules rfl (nearest_iff hk hk' x neg) rfl rfl (fun h => ?_) fun h => ?_
    · rw [if_pos h, Nat.add_mul, Nat.one_mul, BitVec.ofNat_add, ← unit_word, ← BitVec.add_assoc]
      exact .eval hrules rfl
    · rw [if_neg h, Nat.add_zero]
      exact .eval hrules rfl

end Large

theorem integralOf_nan (w : Width) (mode : Rounding) {n : ℕ} (hexp : (format w).expOf n = (format w).topExp)
    (hfrac : ¬(format w).fracOf n = 0) : integralOf w mode n = (format w).canonicalNaN := by
  rw [integralOf, Ieee.Format.decode_eq, if_pos hexp, if_neg hfrac]

/-- Nothing changes where the last place is a whole number, and infinities stay. -/
theorem integralOf_self (w : Width) (mode : Rounding) {n : ℕ} (hexp : (format w).bias + (format w).frac ≤ (format w).expOf n)
    (hnan : ¬((format w).expOf n = (format w).topExp ∧ ¬(format w).fracOf n = 0)) : integralOf w mode n = n := by
  rw [integralOf, Ieee.Format.decode_eq]
  split_ifs with hs hm
  · rfl
  · exact absurd ⟨hs, hm⟩ hnan
  · have hbias : 0 < (format w).bias := by cases w <;> decide
    obtain ⟨k, hk⟩ : ∃ k : ℕ, (format w).lastOf n = k :=
      ⟨(format w).expOf n - (format w).bias - (format w).frac, by
        unfold Ieee.Format.lastOf Ieee.Format.minExp
        omega⟩
    refine if_pos ?_
    rw [hk, zpow_natCast]
    exact_mod_cast congrArg (Nat.cast (R := ℚ)) (Nat.floor_natCast ((format w).sigOf n * 2 ^ k))

theorem toNat_add_le (hx : IsPattern w x) (h : expOf w x < (format w).bias + (format w).frac) :
    x.toNat + 2 ^ (format w).frac ≤ 2 ^ 64 := by
  have hmod := toNat_mod w x
  have hfrac := fracOf_lt w x
  cases w <;> simp [signPlace, format, Ieee.Format.bias, Ieee.binary32, Ieee.binary64] at * <;> omega

theorem does_integral (hrules : env.Obeys integerRules) (hx : IsPattern w x) (mode : Rounding) {v1 v2 v3 v4 v5 v6 : Value} :
    Does env index true (integralCode w mode) [] [floatOf w x, v1, v2, v3, v4, v5, v6]
      (.out (.ok [floatOf w (.ofNat 64 (integralOf w mode x.toNat))])) := by
  have hlt := expOf_lt w x
  have hself {r : ℕ} (hr : r = x.toNat) : floatOf w x = floatOf w (.ofNat 64 r) := by rw [hr, ← word_eq]
  have hopen : Does env index false (assign 1 (toBits w (var 0)) ++ assign 2 (expField w 1) ++ assign 3 (signField w 1)) []
      [floatOf w x, v1, v2, v3, v4, v5, v6] (.on [] [floatOf w x, .i64 x, .i64 (.ofNat 64 (expOf w x)),
        .i64 (.ofNat 64 (negOf w x).toNat), v4, v5, v6]) := by
    rw [← exp_word, ← sign_word w x hx]
    exact .append (.append ((does_toBits hrules hx _).append (.eval hrules rfl)) (.eval hrules rfl)) (.eval hrules rfl)
  unfold integralCode
  simp only [Code.append_assoc]
  rw [← Code.append_assoc, ← Code.append_assoc]
  refine .append hopen ?_
  refine .guard _ hrules rfl (both_iff (isSpecial_iff w x) (fracField_iff w x)) (by cases w <;> rfl)
    (fun hnan => ?_) fun hnan => ?_
  · refine .ret (does_fromBits hrules w (.eval hrules rfl)) ?_
    rw [integralOf_nan w mode hnan.1 hnan.2, ofInt_lit]
  · refine .guard _ hrules rfl (geU_literal (by omega) (by cases w <;> decide)) rfl (fun hwhole => ?_) fun hwhole => ?_
    · exact .ret (.eval hrules rfl) (hself (integralOf_self w mode hwhole hnan))
    refine .guard _ hrules rfl (ltU_literal (by omega) (by cases w <;> decide))
      (by cases w <;> cases mode <;> rfl) (fun hsmall => ?_) fun hsmall => ?_
    · exact .ret (does_fromBits hrules w (does_roundSmall hrules hx mode hsmall)) rfl
    · obtain ⟨k, hk⟩ := Nat.exists_eq_add_of_le (not_le.mp hwhole).le
      have hbound : 0 < k ∧ k ≤ (format w).frac := by omega
      have hplace : (format w).frac < 64 := by cases w <;> decide
      have hmask := mask_word (by omega) hk.symm
      have hand : BitVec.ofNat 64 (2 ^ k - 1) &&& x = .ofNat 64 (x.toNat % 2 ^ k) := by
        rw [BitVec.and_comm, ← literal_eq, and_literal]
      have hlarge := integralOf_large hx mode hbound.2 hk.symm
      have htest := eq_literal (n := x.toNat % 2 ^ k) (k := 0) (lt_of_le_of_lt (Nat.mod_le _ _) x.isLt) (by decide)
      rw [← hand, ← hmask] at htest
      refine .guard _ hrules rfl htest rfl (fun hint => ?_) fun hint => ?_
      · rw [if_pos hint] at hlarge
        exact .ret (.eval hrules rfl) (hself hlarge)
      · rw [if_neg hint] at hlarge
        rw [hlarge]
        obtain ⟨d, h, hround⟩ := @does_roundLarge _ env index x hrules k (negOf w x) (floatOf w x) _ v5 v6 mode hbound.1 (by omega) hint
          (le_trans (Nat.add_le_add_left (Nat.pow_le_pow_right two_pos hbound.2) _) (toNat_add_le hx (not_le.mp hwhole)))
        rw [maskLocals, ← hmask] at hround
        exact .finish (does_fromBits hrules w hround) rfl

/-- The operator that rounds so. -/
def Rounding.operator : Rounding → FloatUn
  | .ceil => .ceil
  | .floor => .floor
  | .trunc => .trunc
  | .nearest => .nearest

theorem exists_pattern {v : Value} (hv : v.type = w.float) : ∃ x : BitVec 64, IsPattern w x ∧ v = floatOf w x ∧ v.bits = x.toNat := by
  cases w with
  | x64 =>
    cases v with
    | f64 x => exact ⟨x, x.isLt, rfl, rfl⟩
    | _ => cases hv
  | x32 =>
    cases v with
    | f32 x =>
      have hbits : (x.setWidth 64).toNat = x.toNat := by bv_omega
      exact ⟨x.setWidth 64, by rw [IsPattern, hbits]; exact x.isLt, congrArg Value.f32 (by bv_omega), hbits.symm⟩
    | _ => cases hv

/-- **Rounding gives the integral number that its way calls for.**  What replaces the operator computes it from
the operand, a double or a single. -/
theorem rounding_gives_integral {m : Module} (henv : env.module = lowered m) (hrules : env.Obeys integerRules)
    {mode : Rounding} (hop : .floatUn w mode.operator ∈ softOpsOf m) {v : Value} (hv : v.type = w.float) :
    ∃ ops, replacement? (.floatUn w mode.operator) = some ops ∧
      Computes env (routineIndex m) ops [v] (.ok (floatOf w (.ofNat 64 (integralOf w mode v.bits)))) := by
  obtain ⟨x, hx, rfl, hbits⟩ := exists_pattern hv
  have hreplace : replacement? (.floatUn w mode.operator) = some [.call (.round w mode)] := by cases mode <;> rfl
  rw [hbits]
  exact ⟨_, hreplace, Does.computes henv (mem_routinesFor hop hreplace (.head _)) rfl (does_integral hrules hx mode)⟩

/-- One and a half is halfway, and the even integer beside it has another exponent. -/
theorem rounding_gives_integral_two : ∃ ops, replacement? (.floatUn .x64 .nearest) = some ops ∧ Computes
    (integerEnv (lowered (operatorModule [.floatUn .x64 .nearest]))) (routineIndex (operatorModule [.floatUn .x64 .nearest]))
    ops [.f64 0x3ff8000000000000] (.ok (.f64 0x4000000000000000)) := by
  have hvalue : integralOf .x64 .nearest (Value.f64 0x3ff8000000000000).bits = 0x4000000000000000 :=
    (integralOf_large (by decide) .nearest (le_refl 52) (by decide)).trans (by decide)
  have hop : .floatUn .x64 (Rounding.operator .nearest) ∈ softOpsOf (operatorModule [.floatUn .x64 .nearest]) := by
    decide
  have hcomputes := rounding_gives_integral (v := .f64 0x3ff8000000000000) (module_integerEnv _) (obeys_integerEnv _) hop rfl
  rw [hvalue] at hcomputes
  exact hcomputes

end ScoreWasm.SoftFloat
