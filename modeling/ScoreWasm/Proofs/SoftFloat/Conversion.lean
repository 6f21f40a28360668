import ScoreWasm.Proofs.SoftFloat.Operands

/-!
# Conversions between the formats

A number goes from one format to the other by one rounding of its exact value.  The larger format has a pattern
for every number of the smaller one, so in that direction nothing changes.
-/

namespace ScoreWasm.SoftFloat

open Wasm Code
open Ieee hiding Value

variable {σ : Type} {env : Env σ} {index : Routine → Nat}

/-- The exponent that the routine for a format packs with, for the exponent field of another one. -/
def rebias (src dst : Width) (e : ℕ) : ℤ := e + (((format dst).bias + 61 : ℕ) - ((format src).bias + (format src).frac : ℕ) : ℤ)

theorem does_reformat {src dst : Width} (hr : Rounds env index dst) {x : BitVec 64} (hx : IsPattern src x) {exp : Code}
    (hexp : ∀ (e : ℕ) (stack : List Value) (v0 v1 v3 v4 : Value),
      evaluate integerRules exp.ops stack [v0, v1, .i64 (.ofNat 64 e), v3, v4] =
        some (.i64 (.ofInt 64 (rebias src dst e)) :: stack, [v0, v1, .i64 (.ofNat 64 e), v3, v4]))
    {v1 v2 v3 v4 : Value} : Does env index true (reformat src dst exp) [] [floatOf src x, v1, v2, v3, v4]
      (.out (.ok [floatOf dst (.ofNat 64 ((format dst).encode ((format src).decode x.toNat)))])) := by
  unfold reformat
  simp only [Code.append_assoc]
  rw [← Code.append_assoc]
  refine .append (does_openOperand hr.rules hx []) ?_
  refine .guard _ hr.rules rfl (isSpecial_iff src x) (by cases dst <;> rfl) (fun hs => ?_) fun hs => ?_
  · refine .guard _ hr.rules rfl (nonzero_iff src x) (by cases dst <;> rfl)
      (fun hm => .ret (does_fromBits hr.rules dst (.eval hr.rules rfl)) ?_)
      fun hm => .ret (does_fromBits hr.rules dst (.eval hr.rules rfl)) ?_
    · rw [Ieee.Format.decode_eq, if_pos hs, if_neg hm, ofInt_lit]
      rfl
    · rw [Ieee.Format.decode_eq, if_pos hs, if_pos (not_not.mp hm),
        signed_word dst _ (by cases dst <;> decide : (format dst).infinity < _)]
      rfl
  rw [Ieee.Format.decode_eq, if_neg hs]
  refine .guard _ hr.rules rfl (isZero_iff src x) (by cases dst <;> rfl)
    (fun h0 => .ret (does_fromBits hr.rules dst (.eval hr.rules rfl)) ?_) fun h0 => ?_
  · have hzero : (format dst).magnitude ((sigOf src x : ℕ) * 2 ^ (format src).lastOf x.toNat) = 0 := by
      simp [h0, Ieee.Format.magnitude]
    rw [signed_word dst _ (by positivity), Ieee.Format.encode, hzero]
  have hlast : (format src).lastOf x.toNat = rebias src dst (max (expOf src x) 1) - (format dst).bias - 61 := by
    show (format src).minExp + (expOf src x - 1 : ℕ) = _
    unfold Ieee.Format.minExp rebias
    omega
  rw [Ieee.Format.encode, hlast]
  refine .append (does_unhide hr.rules src opX rfl rfl (by decide) (lt_trans (expOf_lt src x) (by decide))
    (fracOf_lt src x)) (.finish (does_fromBits hr.rules dst (.call
      (.append (.append (.eval hr.rules rfl) (.eval hr.rules (hexp _ _ _ _ _ _))) (.eval hr.rules rfl))
      (hr.pack _ ?_ ?_))) ?_)
  · have hexp := expOf_lt src x
    have hbias : ∀ w, (format w).bias + (format w).frac < 2 ^ 11 := fun w => by cases w <;> decide
    have hsrc := hbias src
    have hdst := hbias dst
    rw [abs_lt, rebias]
    omega
  · exact lt_trans (sigOf_lt src x) (by decide)
  · rfl

theorem does_promote (hr : Rounds env index .x64) (x : BitVec 32) {v1 v2 v3 v4 : Value} :
    Does env index true promoteCode [] [.f32 x, v1, v2, v3, v4]
      (.out (.ok [.f64 (.ofNat 64 (binary64.encode (binary32.decode x.toNat)))])) := by
  have hbits : (x.setWidth 64).toNat = x.toNat := by bv_omega
  have hlow : floatOf .x32 (x.setWidth 64) = .f32 x := congrArg Value.f32 (by bv_omega)
  have hdoes : Does env index true promoteCode [] [floatOf .x32 (x.setWidth 64), v1, v2, v3, v4] _ :=
    does_reformat hr (by rw [IsPattern, hbits]; exact x.isLt) fun e stack v0 v1 v3 v4 => by
      show some (Value.i64 (.ofNat 64 e + literal 934) :: _, _) = _
      rw [literal_eq, BitVec.ofNat_add_ofNat, ← BitVec.ofInt_natCast]
      rfl
  rw [hbits, hlow] at hdoes
  exact hdoes

/-- A single is promoted to the same number. -/
theorem decode_promoted {n : ℕ} {neg : Bool} {m : ℕ} {e : ℤ} (h : binary32.decode n = .finite neg m e) :
    ∃ m' e', binary64.decode (binary64.encode (.finite neg m e)) = .finite neg m' e' ∧
      (m' : ℚ) * 2 ^ e' = m * 2 ^ e := by
  have hexp : binary32.expOf n < 2 ^ 8 := Nat.mod_lt _ (by decide)
  rw [Ieee.Format.decode_eq] at h
  split at h
  · split at h <;> cases h
  cases h
  have hsig : binary32.sigOf n < 2 ^ 24 := binary32.sigOf_lt n
  have hlast : binary32.lastOf n = -149 + (binary32.expOf n - 1 : ℕ) := rfl
  have hmin : binary64.minExp = -1074 := rfl
  have htop : binary64.topExp = 2047 := rfl
  generalize binary32.sigOf n = m at hsig
  refine Ieee.Format.decode_encode _ _ (k := 52 - m.log2) ?_ ?_ ?_
  · by_cases h0 : m = 0
    · exact .inl h0
    · have hlog : m.log2 < 24 := (Nat.log2_lt h0).mpr hsig
      have hpow : 2 ^ 52 = 2 ^ m.log2 * 2 ^ (52 - m.log2) := by rw [← Nat.pow_add, Nat.add_sub_cancel' (by omega)]
      have hleast := Nat.mul_le_mul_right (2 ^ (52 - m.log2)) (Nat.log2_self_le h0)
      have hmost := Nat.mul_lt_mul_of_pos_right (Nat.lt_log2_self (n := m)) (Nat.two_pow_pos (52 - m.log2))
      rw [Nat.pow_succ, Nat.mul_right_comm, ← hpow] at hmost
      exact .inr ⟨hpow ▸ hleast, by rw [Nat.mul_comm 2]; exact hmost⟩
  · omega
  · omega

end ScoreWasm.SoftFloat
