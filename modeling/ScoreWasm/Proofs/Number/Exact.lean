import ScoreWasm.Machine.Exec
import ScoreWasm.Proofs.Number.Rounding

/-!
# Integers as double-precision numbers

Commands move integers between scores and storages through double-precision numbers.  Every integer of at
most 53 bits is such a number, and multiplying it by one changes nothing, so what a score holds is kept.
-/

namespace ScoreWasm

open Ieee

namespace Ieee

variable {n : Nat}

/-- The pattern of a positive number of at most 53 bits. -/
def exactPattern (n : Nat) : Nat := (n.log2 + 1022) * 2 ^ 52 + n * 2 ^ (52 - n.log2)

section Exact

variable (hn : n ≠ 0) (hlt : n < 2 ^ 53)

include hn hlt

theorem log2_le_of_lt : n.log2 ≤ 52 := Nat.lt_succ_iff.mp ((Nat.log2_lt hn).mpr hlt)

/-- Shifted until its leading bit is the hidden one, a number has the bits of a significand. -/
theorem normalized_bounds : 2 ^ 52 ≤ n * 2 ^ (52 - n.log2) ∧ n * 2 ^ (52 - n.log2) < 2 ^ 53 := by
  have hpow : ∀ j, 2 ^ (52 + j) = 2 ^ (n.log2 + j) * 2 ^ (52 - n.log2) := fun j => by
    rw [← Nat.pow_add]
    congr 1
    have := log2_le_of_lt hn hlt
    omega
  constructor
  · rw [← Nat.add_zero 52, hpow 0]
    exact Nat.mul_le_mul_right _ (Nat.log2_self_le hn)
  · rw [hpow 1]
    exact Nat.mul_lt_mul_of_pos_right Nat.lt_log2_self (Nat.two_pow_pos _)

theorem exactPattern_eq : exactPattern n = (n.log2 + 1023) * 2 ^ 52 + (n * 2 ^ (52 - n.log2) - 2 ^ 52) := by
  have := normalized_bounds hn hlt
  unfold exactPattern
  omega

theorem exactPattern_lt : exactPattern n < binary64.infinity := by
  have := normalized_bounds hn hlt
  have := log2_le_of_lt hn hlt
  show (n.log2 + 1022) * 2 ^ 52 + n * 2 ^ (52 - n.log2) < 2047 * 2 ^ 52
  omega

omit hn hlt in
theorem exponent_eq : binary64.minExp + (n.log2 + 1023 - 1 : Nat) = (n.log2 : Int) - 52 := by
  show (-1074 : Int) + _ = _
  omega

/-- Rounding a number of at most 53 bits is exact. -/
theorem roundMagnitude_exact (j : Nat) : binary64.roundMagnitude (n * 2 ^ j) (2 ^ j) = exactPattern n := by
  obtain ⟨hleast, hmost⟩ := normalized_bounds hn hlt
  have hlog := log2_le_of_lt hn hlt
  have hself := magnitude_self binary64 (e := n.log2 + 1023) (m := n * 2 ^ (52 - n.log2) - 2 ^ 52)
    (show _ < 2047 by omega) (show _ < 2 ^ 52 by omega)
  have hplace : (n.log2 : Int) - 52 = -(52 - n.log2 : Nat) := by omega
  rw [if_neg (by omega), exponent_eq, hplace, zpow_neg, zpow_natCast, show 2 ^ binary64.frac = 2 ^ 52 from rfl,
    Nat.sub_add_cancel hleast, ← exactPattern_eq hn hlt] at hself
  rw [roundMagnitude_eq _ _ (Nat.two_pow_pos j), ← hself]
  push_cast
  field_simp

theorem decode_exactPattern (neg : Bool) : binary64.decode (binary64.signed neg (exactPattern n))
    = .finite neg (n * 2 ^ (52 - n.log2)) ((n.log2 : Int) - 52) := by
  obtain ⟨hleast, hmost⟩ := normalized_bounds hn hlt
  have hlog := log2_le_of_lt hn hlt
  obtain ⟨hexp, hfrac, hneg⟩ := binary64.fields_signed neg (e := n.log2 + 1023)
    (m := n * 2 ^ (52 - n.log2) - 2 ^ 52) (show _ < 2 ^ 11 by omega) (show _ < 2 ^ 52 by omega)
  rw [show 2 ^ binary64.frac = 2 ^ 52 from rfl, ← exactPattern_eq hn hlt] at hexp hfrac hneg
  rw [Format.decode_eq, Format.sigOf, Format.lastOf, hexp, hfrac, hneg, exponent_eq,
    if_neg (show n.log2 + 1023 ≠ binary64.topExp from show _ ≠ 2047 by omega), if_neg (by omega), show 2 ^ binary64.frac = 2 ^ 52 from rfl, Nat.sub_add_cancel hleast]

theorem signed_exactPattern_lt (neg : Bool) : binary64.signed neg (exactPattern n) < 2 ^ 64 := by
  have hpattern : exactPattern n < 2047 * 2 ^ 52 := exactPattern_lt hn hlt
  cases neg
  · show exactPattern n < _
    omega
  · show 2 ^ 63 + exactPattern n < _
    omega

end Exact

end Ieee

namespace Binary64

/-- The number that an integer of at most 53 bits is. -/
def exact (i : Int) : Binary64 :=
  if i = 0 then ofPattern 0 else ofPattern (binary64.signed (i < 0) (exactPattern i.natAbs))

variable {i : Int}

theorem ofInt?_exact (h : i.natAbs < 2 ^ 53) : ofInt? i = some (exact i) := by
  unfold ofInt? exact
  by_cases hi : i = 0
  · subst hi
    decide
  · have hne : i.natAbs ≠ 0 := Int.natAbs_ne_zero.mpr hi
    have hround : binary64.round (i < 0) i.natAbs 1 = binary64.signed (i < 0) (exactPattern i.natAbs) := by
      have := roundMagnitude_exact hne h 0
      rw [Nat.pow_zero, Nat.mul_one] at this
      unfold Format.round
      rw [this]
    have hfinite : (binary64.signed (i < 0) (exactPattern i.natAbs) % binary64.signBit == binary64.infinity) = false := by
      have hpattern : exactPattern i.natAbs < 2047 * 2 ^ 52 := exactPattern_lt hne h
      rw [beq_eq_false_iff_ne]
      show (if decide (i < 0) = true then 2 ^ 63 + _ else _) % 2 ^ 63 ≠ 2047 * 2 ^ 52
      split <;> omega
    simp only [hround, hfinite, if_neg hi]
    rfl

theorem value_exact (hi : i ≠ 0) (h : i.natAbs < 2 ^ 53) :
    (exact i).value = .finite (i < 0) (i.natAbs * 2 ^ (52 - i.natAbs.log2)) ((i.natAbs.log2 : Int) - 52) := by
  have hne : i.natAbs ≠ 0 := Int.natAbs_ne_zero.mpr hi
  unfold exact value ofPattern
  rw [if_neg hi]
  rw [UInt64.toNat_ofNat_of_lt' (signed_exactPattern_lt hne h _), decode_exactPattern hne h]

theorem exact_mul_one (h : i.natAbs < 2 ^ 53) : (exact i).mul one = exact i := by
  by_cases hi : i = 0
  · subst hi
    decide
  · have hne : i.natAbs ≠ 0 := Int.natAbs_ne_zero.mpr hi
    have hlog : i.natAbs.log2 ≤ 52 := Nat.lt_succ_iff.mp ((Nat.log2_lt hne).mpr h)
    have hone : one.value = .finite false (2 ^ 52) (-52) := by decide
    unfold mul
    simp only [value_exact hi h, hone]
    obtain ⟨k, hk⟩ : ∃ k, 104 - i.natAbs.log2 = k + 1 := ⟨103 - i.natAbs.log2, by omega⟩
    have hexp : (i.natAbs.log2 : Int) - 52 + -52 = Int.negSucc k := by omega
    have hmant : i.natAbs * 2 ^ (52 - i.natAbs.log2) * 2 ^ 52 = i.natAbs * 2 ^ (k + 1) := by
      rw [Nat.mul_assoc, ← Nat.pow_add]
      congr 2
      omega
    rw [hexp, hmant]
    show ofPattern (binary64.round _ (i.natAbs * 2 ^ (k + 1)) (2 ^ (k + 1))) = _
    unfold Format.round exact
    rw [roundMagnitude_exact hne h, if_neg hi]
    simp

theorem floor_exact (h : i.natAbs < 2 ^ 53) : (exact i).floor = .ok i := by
  by_cases hi : i = 0
  · subst hi
    have hzero : (exact 0).value = .finite false 0 (Int.negSucc 1073) := by decide
    unfold floor
    simp only [hzero, floorDyadic, Nat.zero_div]
    rfl
  · have hne : i.natAbs ≠ 0 := Int.natAbs_ne_zero.mpr hi
    have hlog : i.natAbs.log2 ≤ 52 := Nat.lt_succ_iff.mp ((Nat.log2_lt hne).mpr h)
    unfold floor
    simp only [value_exact hi h]
    congr 1
    have hsign : (if decide (i < 0) = true then -(i.natAbs : Int) else (i.natAbs : Int)) = i := by
      split
      next hneg =>
        have := of_decide_eq_true hneg
        omega
      next hpos =>
        have := of_decide_eq_false (Bool.eq_false_iff.mpr hpos)
        omega
    rcases Nat.lt_or_ge i.natAbs.log2 52 with hlt | hge
    · obtain ⟨k, hk⟩ : ∃ k, 52 - i.natAbs.log2 = k + 1 := ⟨51 - i.natAbs.log2, by omega⟩
      have hpos := Nat.two_pow_pos (k + 1)
      rw [hk, show (i.natAbs.log2 : Int) - 52 = Int.negSucc k by omega]
      have hup : (i.natAbs * 2 ^ (k + 1) + 2 ^ (k + 1) - 1) / 2 ^ (k + 1) = i.natAbs := by
        rw [Nat.add_sub_assoc hpos, Nat.mul_comm, Nat.mul_add_div hpos, Nat.div_eq_of_lt (by omega), Nat.add_zero]
      unfold floorDyadic
      simp only [hup, Nat.mul_div_cancel _ hpos]
      exact hsign
    · have hlog' : i.natAbs.log2 = 52 := by omega
      rw [hlog']
      show (if decide (i < 0) = true then -((i.natAbs * 2 ^ 0 * 2 ^ 0 : Nat) : Int) else ((i.natAbs * 2 ^ 0 * 2 ^ 0 : Nat) : Int)) = i
      rw [Nat.pow_zero, Nat.mul_one, Nat.mul_one]
      exact hsign

end Binary64

end ScoreWasm

namespace ScoreWasm.Machine.View

open Word

variable {i : Int}

/-- A signed number of 32 bits. -/
def IsWord (i : Int) : Prop := -2 ^ 31 ≤ i ∧ i < 2 ^ 31

theorem isWord_wrap32 (i : Int) : IsWord (wrap32 i) := by
  have h1 := Int.le_bmod (x := i) (m := 2 ^ 32) (by decide)
  have h2 := Int.bmod_lt (x := i) (m := 2 ^ 32) (by decide)
  unfold wrap32 IsWord
  omega

theorem wrap32_of_isWord (h : IsWord i) : wrap32 i = i := by
  unfold wrap32 IsWord at *
  rw [Int.bmod_def]
  omega

theorem scaled_word (h : IsWord i) (w : World) : scaled i Binary64.one w = .ok (Binary64.exact i) w := by
  have habs : i.natAbs < 2 ^ 53 := by
    unfold IsWord at h
    omega
  unfold scaled
  rw [Binary64.ofInt?_exact habs]
  show EStateM.Result.ok ((Binary64.exact i).mul Binary64.one) w = _
  rw [Binary64.exact_mul_one habs]

theorem floorOf_word (h : IsWord i) (w : World) : floorOf (Binary64.exact i) w = .ok i w := by
  have habs : i.natAbs < 2 ^ 53 := by
    unfold IsWord at h
    omega
  unfold floorOf
  rw [Binary64.floor_exact habs]
  rfl

end ScoreWasm.Machine.View
