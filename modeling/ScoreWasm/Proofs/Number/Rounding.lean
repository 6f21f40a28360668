import Mathlib.Algebra.Order.Floor.Semifield
import Mathlib.Algebra.Order.Field.Power
import Mathlib.Data.Int.Log
import Mathlib.Data.Nat.Cast.Field
import Mathlib.Data.Rat.Floor
import Mathlib.Tactic.FieldSimp
import Mathlib.Tactic.Linarith
import Mathlib.Tactic.Positivity
import Mathlib.Tactic.Ring
import ScoreWasm.Number.Ieee

/-!
# Rounding of rational numbers

Rounding is computed on quotients of natural numbers, and said here of the rational number alone: its
logarithm gives the last place that a format has for it, and `magnitude` counts in units of that place,
ties to even.  Bits that are lost early may be kept in one last bit, two places below where rounding
looks (`roundHalfEven_jam`); a number that has a pattern is rounded to itself (`magnitude_self`).
-/

namespace ScoreWasm.Ieee

/-- A number rounded to a natural one, ties to even. -/
def nearestEven (x : ℚ) : ℕ :=
  if 2 * (x - ⌊x⌋₊) < 1 then ⌊x⌋₊
  else if 1 < 2 * (x - ⌊x⌋₊) then ⌊x⌋₊ + 1
  else if ⌊x⌋₊ % 2 == 0 then ⌊x⌋₊ else ⌊x⌋₊ + 1

theorem roundHalfEven_eq (n : ℕ) {d : ℕ} (hd : 0 < d) : roundHalfEven n d = nearestEven (n / d) := by
  have hd' : (0 : ℚ) < d := Nat.cast_pos.mpr hd
  have hrest : 2 * ((n : ℚ) / d - (n / d : ℕ)) = (2 * (n % d) : ℕ) / d := by
    have hn : (n : ℚ) = d * (n / d : ℕ) + (n % d : ℕ) := mod_cast (Nat.div_add_mod n d).symm
    rw [eq_div_iff hd'.ne', Nat.cast_mul, mul_assoc, sub_mul, div_mul_cancel₀ _ hd'.ne']
    linarith
  unfold roundHalfEven nearestEven
  simp only [Nat.floor_div_eq_div, hrest, div_lt_one hd', one_lt_div hd', Nat.cast_lt]

theorem roundScaled_eq (n : ℕ) {d : ℕ} (hd : 0 < d) (q : ℤ) : roundScaled n d q = nearestEven (n / d / 2 ^ q) := by
  cases q with
  | ofNat k =>
    show roundHalfEven n (d * 2 ^ k) = _
    rw [roundHalfEven_eq n (by positivity), div_div]
    simp
  | negSucc k =>
    show roundHalfEven (n * 2 ^ (k + 1)) d = _
    rw [roundHalfEven_eq _ hd, zpow_negSucc]
    simp
    ring_nf

theorem log_eq {x : ℚ} {z : ℤ} (hlow : 2 ^ z ≤ x) (hhigh : x < 2 ^ (z + 1)) : Int.log 2 x = z := by
  have hx : 0 < x := lt_of_lt_of_le (by positivity) hlow
  have h1 := (Int.zpow_le_iff_le_log one_lt_two hx).mp (mod_cast hlow)
  have h2 := (Int.lt_zpow_iff_log_lt one_lt_two hx).mp (mod_cast hhigh)
  omega

theorem zpow_log2 {n : ℕ} (hn : n ≠ 0) : (2 : ℚ) ^ (n.log2 : ℤ) ≤ n ∧ (n : ℚ) < 2 ^ ((n.log2 : ℤ) + 1) := by
  refine ⟨?_, ?_⟩
  · rw [zpow_natCast]
    exact_mod_cast Nat.log2_self_le hn
  · exact_mod_cast (Nat.lt_log2_self : n < 2 ^ (n.log2 + 1))

/-- The place of the leading bit of a quotient is the difference of those of its terms, or one less. -/
theorem floorLog2_eq {n d : ℕ} (hn : n ≠ 0) (hd : d ≠ 0) : floorLog2 n d = Int.log 2 ((n : ℚ) / d) := by
  have hd' : (0 : ℚ) < d := Nat.cast_pos.mpr (Nat.pos_of_ne_zero hd)
  obtain ⟨hn1, hn2⟩ := zpow_log2 hn
  obtain ⟨hd1, hd2⟩ := zpow_log2 hd
  have hhigh : (n : ℚ) / d < 2 ^ ((n.log2 : ℤ) - d.log2 + 1) := by
    rw [div_lt_iff₀ hd', sub_add_eq_add_sub, zpow_sub₀ two_ne_zero]
    calc (n : ℚ) < 2 ^ ((n.log2 : ℤ) + 1) := hn2
      _ = 2 ^ ((n.log2 : ℤ) + 1) / 2 ^ (d.log2 : ℤ) * 2 ^ (d.log2 : ℤ) := by field_simp
      _ ≤ _ := by gcongr
  have hlow : (2 : ℚ) ^ ((n.log2 : ℤ) - d.log2 - 1) ≤ n / d := by
    rw [le_div_iff₀ hd', sub_sub, zpow_sub₀ two_ne_zero]
    calc (2 : ℚ) ^ (n.log2 : ℤ) / 2 ^ ((d.log2 : ℤ) + 1) * d
        ≤ 2 ^ (n.log2 : ℤ) / 2 ^ ((d.log2 : ℤ) + 1) * 2 ^ ((d.log2 : ℤ) + 1) := by gcongr
      _ = 2 ^ (n.log2 : ℤ) := by field_simp
      _ ≤ n := hn1
  have hfits : floorLog2 n d = if (2 : ℚ) ^ ((n.log2 : ℤ) - d.log2) ≤ n / d then
      (n.log2 : ℤ) - d.log2 else (n.log2 : ℤ) - d.log2 - 1 := by
    unfold floorLog2
    generalize (n.log2 : ℤ) - d.log2 = e
    simp only [le_div_iff₀ hd']
    cases e with
    | ofNat k =>
      simp only [Int.ofNat_eq_natCast, zpow_natCast, decide_eq_true_eq, mul_comm d]
      norm_cast
    | negSucc k =>
      simp only [zpow_negSucc, decide_eq_true_eq, inv_mul_le_iff₀ (show (0 : ℚ) < 2 ^ (k + 1) by positivity), mul_comm n]
      norm_cast
  rw [hfits]
  split
  next h => exact (log_eq h hhigh).symm
  next h => exact (log_eq hlow (by simpa using h)).symm

/-- The exponent of the last place that a format has for a positive number. -/
def Format.lastPlace (f : Format) (x : ℚ) : ℤ := max (Int.log 2 x - f.frac) f.minExp

/-- The pattern, without sign, of a number rounded to nearest, ties to even. -/
def Format.magnitude (f : Format) (x : ℚ) : ℕ :=
  if x = 0 then 0
  else min ((f.lastPlace x - f.minExp).toNat * 2 ^ f.frac + nearestEven (x / 2 ^ f.lastPlace x)) f.infinity

theorem roundMagnitude_eq (f : Format) (n : ℕ) {d : ℕ} (hd : 0 < d) : f.roundMagnitude n d = f.magnitude (n / d) := by
  have hzero : ((n : ℚ) / d = 0) ↔ n = 0 := by simp [hd.ne']
  unfold Format.roundMagnitude Format.magnitude
  by_cases hn : n = 0
  · simp [hn]
  · rw [if_neg (by simpa using hn), if_neg (hzero.not.mpr hn), floorLog2_eq hn hd.ne']
    simp only [roundScaled_eq n hd, Format.lastPlace]

theorem roundDyadic_eq (f : Format) (neg : Bool) (m : ℕ) (e : ℤ) :
    f.roundDyadic neg m e = f.signed neg (f.magnitude (m * 2 ^ e)) := by
  cases e with
  | ofNat k =>
    show f.signed neg (f.roundMagnitude (m * 2 ^ k) 1) = _
    rw [roundMagnitude_eq f _ Nat.one_pos]
    simp
  | negSucc k =>
    show f.signed neg (f.roundMagnitude m (2 ^ (k + 1))) = _
    rw [roundMagnitude_eq f _ (by positivity), zpow_negSucc]
    simp [div_eq_mul_inv]

/-! ### Lost bits -/

/-- A quotient whose last bit also stands for what is lost of it. -/
def jam (n d : ℕ) : ℕ := if n % d = 0 then n / d else n / d ||| 1

theorem or_one (n : ℕ) : n ||| 1 = 2 * (n / 2) + 1 := by
  have hhalf : (n ||| 1) / 2 = n / 2 ||| 0 := Nat.or_div_two
  have hodd : (n ||| 1) % 2 = 1 := Nat.or_mod_two_eq_one.mpr (.inr rfl)
  rw [Nat.or_zero] at hhalf
  omega

/-- Lost bits do not matter for rounding two places higher up or more. -/
theorem roundHalfEven_jam (n : ℕ) {d : ℕ} (hd : 0 < d) (j : ℕ) :
    roundHalfEven (jam n d) (2 ^ (j + 2)) = roundHalfEven n (d * 2 ^ (j + 2)) := by
  obtain ⟨c, hc, hpos⟩ : ∃ c, 2 ^ (j + 2) = 4 * c ∧ 0 < c := ⟨2 ^ j, by ring, by positivity⟩
  have hrest : n % (d * (4 * c)) = n % d + d * (n / d % (4 * c)) := Nat.mod_mul
  have hwhole : n / (d * (4 * c)) = n / d / (4 * c) := (Nat.div_div_eq_div_mul ..).symm
  have hlt := Nat.mod_lt n hd
  unfold jam roundHalfEven
  rw [hc, hrest, hwhole]
  generalize n / d = q at *
  generalize n % d = r at *
  have hu : q % (4 * c) < 4 * c := Nat.mod_lt _ (by omega)
  by_cases hr : r = 0
  · subst hr
    simp only [if_true, zero_add, Nat.mul_left_comm 2 d, Nat.mul_lt_mul_left hd]
  · rw [if_neg hr, or_one]
    -- The quotient and its odd neighbour have the same digits above the last one.
    have hq := Nat.div_add_mod q (4 * c)
    generalize q % (4 * c) = u at *
    generalize q / (4 * c) = v at *
    have hodd : 2 * (q / 2) + 1 = 4 * c * v + (2 * (u / 2) + 1) := by
      rw [mul_assoc] at hq ⊢
      omega
    have hdiv : (2 * (q / 2) + 1) / (4 * c) = v := by
      rw [hodd, Nat.mul_add_div (by omega), Nat.div_eq_of_lt (by omega), add_zero]
    have hmod : (2 * (q / 2) + 1) % (4 * c) = 2 * (u / 2) + 1 := by
      rw [hodd, Nat.mul_add_mod, Nat.mod_eq_of_lt (by omega)]
    have hdc : d * (4 * c) = 4 * (d * c) := by ring
    rw [hdiv, hmod, hdc]
    rcases Nat.lt_or_ge u (2 * c) with hlow | hhigh
    · have hmul : d * (u + 1) ≤ d * (2 * c) := Nat.mul_le_mul_left d hlow
      rw [Nat.mul_succ, Nat.mul_left_comm] at hmul
      rw [if_pos (by omega), if_pos (by omega)]
    · have hmul : d * (2 * c) ≤ d * u := Nat.mul_le_mul_left d hhigh
      rw [Nat.mul_left_comm] at hmul
      rw [if_neg (by omega), if_pos (by omega), if_neg (by omega), if_pos (by omega)]

theorem log_mul_zpow {x : ℚ} {k : ℕ} (hlow : 2 ^ k ≤ x) (hhigh : x < 2 ^ (k + 1)) (e : ℤ) :
    Int.log 2 (x * 2 ^ e) = k + e := by
  refine log_eq ?_ ?_
  · rw [zpow_add₀ two_ne_zero, zpow_natCast]
    gcongr
  · rw [add_right_comm, zpow_add₀ two_ne_zero, ← Nat.cast_succ, zpow_natCast]
    gcongr

/-- A number with its leading bit, rounded: the exponent field is one less than the one that the leading bit brings
with it. -/
theorem magnitude_normal (f : Format) {k n : ℕ} (hlow : 2 ^ (k + 1) ≤ n) (hhigh : n < 2 ^ (k + 2))
    (hfrac : f.frac ≤ k + 1) {e q : ℤ} (hq : q = e - f.bias - k) : f.magnitude (n * 2 ^ q) =
      min (e.toNat * 2 ^ f.frac + roundHalfEven n (2 ^ (k + 1 - f.frac + (-e).toNat))) f.infinity := by
  have hlog := log_mul_zpow (x := n) (mod_cast hlow) (mod_cast hhigh) q
  have hplace : f.lastPlace (n * 2 ^ q) = f.minExp + e.toNat := by
    unfold Format.lastPlace Format.minExp
    omega
  have hpos : ((n : ℚ) * 2 ^ q ≠ 0) := by
    have : n ≠ 0 := (lt_of_lt_of_le (Nat.two_pow_pos _) hlow).ne'
    positivity
  have hscale : (n : ℚ) * 2 ^ q / 2 ^ (f.minExp + e.toNat) = n / (2 ^ (k + 1 - f.frac + (-e).toNat) : ℕ) := by
    have hexp : q = f.minExp + e.toNat - (k + 1 - f.frac + (-e).toNat : ℕ) := by
      unfold Format.minExp
      omega
    rw [hexp, zpow_sub₀ two_ne_zero, zpow_natCast]
    push_cast
    field_simp
  rw [roundHalfEven_eq _ (by positivity), ← hscale, Format.magnitude, if_neg hpos, hplace,
    add_sub_cancel_left, Int.toNat_natCast]

/-- A number that has a pattern is rounded to itself. -/
theorem magnitude_self (f : Format) {e m : ℕ} (he : e < f.topExp) (hm : m < 2 ^ f.frac) :
    f.magnitude ((if e = 0 then m else m + 2 ^ f.frac : ℕ) * 2 ^ (f.minExp + (e - 1 : ℕ))) = e * 2 ^ f.frac + m := by
  have hle : e * 2 ^ f.frac + m ≤ f.infinity := by
    have := Nat.mul_le_mul_right (2 ^ f.frac) (Nat.succ_le_of_lt he)
    rw [Nat.succ_mul] at this
    exact le_trans (by omega) this
  generalize hn : (if e = 0 then m else m + 2 ^ f.frac) = n
  have hsum : (e - 1) * 2 ^ f.frac + n = e * 2 ^ f.frac + m := by
    rw [← hn]
    cases e with
    | zero => simp
    | succ e => simp [Nat.succ_mul, add_assoc, add_comm m]
  unfold Format.magnitude
  by_cases h0 : n = 0
  · rw [if_pos (by simp [h0])]
    have : e = 0 := by
      by_contra h
      rw [if_neg h] at hn
      have := Nat.two_pow_pos f.frac
      omega
    rw [← hsum, h0, this]
    simp
  · have hlog := log_mul_zpow (x := n) (mod_cast Nat.log2_self_le h0)
      (mod_cast Nat.lt_log2_self) (f.minExp + (e - 1 : ℕ))
    have hplace : f.lastPlace (n * 2 ^ (f.minExp + (e - 1 : ℕ))) = f.minExp + (e - 1 : ℕ) := by
      unfold Format.lastPlace
      by_cases h : e = 0
      · rw [if_pos h] at hn
        have : n.log2 < f.frac := (Nat.log2_lt h0).mpr (hn ▸ hm)
        omega
      · rw [if_neg h] at hn
        have : n.log2 = f.frac := (Nat.log2_eq_iff h0).mpr (by rw [Nat.pow_succ]; omega)
        omega
    have hround : nearestEven (n * 2 ^ (f.minExp + (e - 1 : ℕ)) / 2 ^ (f.minExp + (e - 1 : ℕ))) = n := by
      rw [mul_div_cancel_right₀ _ (by positivity), ← div_one (n : ℚ), ← Nat.cast_one, ← roundHalfEven_eq n Nat.one_pos]
      simp [roundHalfEven, Nat.mod_one]
    rw [if_neg (by positivity), hplace, hround, add_sub_cancel_left, Int.toNat_natCast, hsum, Nat.min_eq_left hle]

/-! ### Fields of a pattern -/

namespace Format

variable (f : Format) (n : ℕ)

/-- The exponent field. -/
def expOf : ℕ := n / 2 ^ f.frac % 2 ^ f.exp

/-- The fraction field. -/
def fracOf : ℕ := n % 2 ^ f.frac

/-- The sign bit is set. -/
def isNegative : Bool := n / f.signBit % 2 == 1

/-- The significand with its hidden bit. -/
def sigOf : ℕ := if f.expOf n = 0 then f.fracOf n else f.fracOf n + 2 ^ f.frac

theorem sigOf_lt : f.sigOf n < 2 * 2 ^ f.frac := by
  have hfrac : f.fracOf n < 2 ^ f.frac := Nat.mod_lt _ (by positivity)
  unfold sigOf
  split <;> omega

/-- The place of the last bit of the significand. -/
def lastOf : ℤ := f.minExp + (f.expOf n - 1 : ℕ)

theorem decode_eq : f.decode n =
    if f.expOf n = f.topExp then if f.fracOf n = 0 then .inf (f.isNegative n) else .nan (f.isNegative n) (f.fracOf n)
    else .finite (f.isNegative n) (f.sigOf n) (f.lastOf n) := by
  show (if (f.expOf n == f.topExp) = true then
      if (f.fracOf n == 0) = true then .inf (f.isNegative n) else .nan (f.isNegative n) (f.fracOf n)
    else if (f.expOf n == 0) = true then .finite (f.isNegative n) (f.fracOf n) f.minExp
    else .finite (f.isNegative n) (f.fracOf n + 2 ^ f.frac) (f.minExp + (f.expOf n - 1 : ℕ)) : Value) = _
  by_cases h : f.expOf n = 0 <;> simp [sigOf, lastOf, h]

/-- The pattern that is nearest to a value. -/
def encode (f : Format) : Value → ℕ
  | .nan _ _ => f.canonicalNaN
  | .inf neg => f.signed neg f.infinity
  | .finite neg m e => f.signed neg (f.magnitude (m * 2 ^ e))

theorem fields_signed (neg : Bool) {e m : ℕ} (he : e < 2 ^ f.exp) (hm : m < 2 ^ f.frac) :
    f.expOf (f.signed neg (e * 2 ^ f.frac + m)) = e ∧ f.fracOf (f.signed neg (e * 2 ^ f.frac + m)) = m ∧
      f.isNegative (f.signed neg (e * 2 ^ f.frac + m)) = neg := by
  have hsigned : f.signed neg (e * 2 ^ f.frac + m) = m + (e + neg.toNat * 2 ^ f.exp) * 2 ^ f.frac := by
    cases neg <;> simp [signed, signBit, Nat.pow_add] <;> ring
  have hhigh : (m + (e + neg.toNat * 2 ^ f.exp) * 2 ^ f.frac) / 2 ^ f.frac = e + neg.toNat * 2 ^ f.exp := by
    rw [Nat.add_mul_div_right _ _ (by positivity), Nat.div_eq_of_lt hm, Nat.zero_add]
  rw [hsigned]
  refine ⟨?_, ?_, ?_⟩
  · rw [expOf, hhigh, Nat.add_mul_mod_self_right, Nat.mod_eq_of_lt he]
  · rw [fracOf, Nat.add_mul_mod_self_right, Nat.mod_eq_of_lt hm]
  · rw [isNegative, signBit, Nat.pow_add, ← Nat.div_div_eq_div_mul, hhigh,
      Nat.add_mul_div_right _ _ (by positivity), Nat.div_eq_of_lt he, Nat.zero_add]
    cases neg <;> rfl

/-- Zero, or a number that the format has a normal pattern for, is read back from its pattern. -/
theorem decode_encode (neg : Bool) {m k : ℕ} {e : ℤ} (hm : m = 0 ∨ 2 ^ f.frac ≤ m * 2 ^ k ∧ m * 2 ^ k < 2 * 2 ^ f.frac)
    (hlow : f.minExp ≤ e - k) (hhigh : e - k - f.minExp + 1 < f.topExp) :
    ∃ m' e', f.decode (f.encode (.finite neg m e)) = .finite neg m' e' ∧ (m' : ℚ) * 2 ^ e' = m * 2 ^ e := by
  obtain ⟨E, M, hE, hM, hvalue⟩ : ∃ E M, E < f.topExp ∧ M < 2 ^ f.frac ∧
      ((if E = 0 then M else M + 2 ^ f.frac : ℕ) : ℚ) * 2 ^ (f.minExp + (E - 1 : ℕ)) = m * 2 ^ e := by
    rcases hm with rfl | ⟨hleast, hmost⟩
    · exact ⟨0, 0, by omega, by positivity, by simp⟩
    · refine ⟨(e - k - f.minExp + 1).toNat, m * 2 ^ k - 2 ^ f.frac, by omega, by omega, ?_⟩
      have hlast : f.minExp + ((e - k - f.minExp + 1).toNat - 1 : ℕ) = e - k := by omega
      rw [if_neg (by omega), Nat.sub_add_cancel hleast, hlast, zpow_sub₀ two_ne_zero, zpow_natCast]
      push_cast
      field_simp
  obtain ⟨hexp, hfrac, hneg⟩ := f.fields_signed neg (lt_of_lt_of_le hE (Nat.sub_le _ _)) hM
  refine ⟨_, _, ?_, hvalue⟩
  rw [encode, ← hvalue, magnitude_self f hE hM, decode_eq, sigOf, lastOf, hexp, hfrac, hneg, if_neg hE.ne]

end Format

end ScoreWasm.Ieee
