import ScoreWasm.Proofs.Number.Rounding
import ScoreWasm.Proofs.SoftFloat.Execution

/-!
# Packing rounds to nearest

The routine gets a sign, an exponent and a significand.  It shifts the leading bit of the significand to
the last but one of a word, for a subnormal result back again with a last bit that stands for what is
lost, and adds half of the last place that stays; a tie has that place cleared, and a carry runs into
the exponent field.  Each of these steps is followed by itself, and `Ieee.magnitude_normal` says that
together they are the rounding of the exact number.
-/

namespace ScoreWasm.SoftFloat

open Wasm Code
open BitVec hiding neg_neg sub_sub
open Ieee (roundHalfEven jam)

variable {σ : Type} {env : Env σ} {index : Routine → Nat} {n d e k h p m sig : ℕ} {x y exp : ℤ}

/-! ### Words -/

@[simp] theorem ofInt_lit (n : ℕ) : BitVec.ofInt 64 ((n : ℤ).bmod (2 ^ 64)) = BitVec.ofNat 64 n := by
  apply eq_of_toInt_eq
  rw [toInt_ofInt, toInt_ofNat']
  simp

theorem ofInt_sub (x y : ℤ) : BitVec.ofInt 64 (x - y) = .ofInt 64 x - .ofInt 64 y := by
  rw [Int.sub_eq_add_neg, ofInt_add, ofInt_neg, BitVec.sub_eq_add_neg]

theorem ofNat_shl (n k : ℕ) : BitVec.ofNat 64 n <<< k = BitVec.ofNat 64 (n * 2 ^ k) := by
  apply eq_of_toNat_eq
  simp [Nat.shiftLeft_eq]

theorem ofNat_shr (h : n < 2 ^ 64) (k : ℕ) : BitVec.ofNat 64 n >>> k = BitVec.ofNat 64 (n / 2 ^ k) := by
  apply eq_of_toNat_eq
  have hdiv : n / 2 ^ k < 2 ^ 64 := lt_of_le_of_lt (Nat.div_le_self _ _) h
  rw [toNat_ushiftRight, toNat_ofNat, toNat_ofNat, Nat.mod_eq_of_lt h, Nat.mod_eq_of_lt hdiv,
    Nat.shiftRight_eq_div_pow]

theorem ofNat_mask (n k : ℕ) : BitVec.ofNat 64 n &&& BitVec.ofNat 64 (2 ^ k - 1) = BitVec.ofNat 64 (n % 2 ^ k) := by
  rw [← ofNat_and, Nat.and_two_pow_sub_one_eq_mod]

theorem ofNat_even (h : n < 2 ^ 64) :
    BitVec.ofNat 64 n &&& BitVec.ofInt 64 ((-2 : ℤ).bmod (2 ^ 64)) = BitVec.ofNat 64 (2 * (n / 2)) := by
  have hlit : BitVec.ofInt 64 ((-2 : ℤ).bmod (2 ^ 64)) = allOnes 64 <<< 1 := by decide
  rw [hlit, ← shiftLeft_ushiftRight, ofNat_shr h, ofNat_shl, Nat.pow_one, Nat.mul_comm]

theorem ofNat_inj (hn : n < 2 ^ 64) (hk : k < 2 ^ 64) : BitVec.ofNat 64 n = BitVec.ofNat 64 k ↔ n = k := by
  rw [← toNat_inj, toNat_ofNat, toNat_ofNat, Nat.mod_eq_of_lt hn, Nat.mod_eq_of_lt hk]

@[simp] theorem flag_ne_zero {b : Bool} : (if b = true then 1 else 0 : BitVec 32) ≠ 0 ↔ b = true := by
  cases b <;> simp

@[simp] theorem flag_or (b c : Bool) : ((if b = true then 1 else 0) ||| (if c = true then 1 else 0) : BitVec 32) =
    if (b || c) = true then 1 else 0 := by
  cases b <;> cases c <;> rfl

@[simp] theorem flag_and (b c : Bool) : ((if b = true then 1 else 0) &&& (if c = true then 1 else 0) : BitVec 32) =
    if (b && c) = true then 1 else 0 := by
  cases b <;> cases c <;> rfl

@[simp] theorem setWidth_flag (b : Bool) :
    (if b = true then 1 else 0 : BitVec 32).setWidth 64 = BitVec.ofNat 64 b.toNat := by
  cases b <;> rfl

/-! ### Shifts that keep what they lose -/

theorem jam_eq (n d : ℕ) : jam n d = n / d ||| (n % d != 0).toNat := by
  unfold jam
  by_cases h : n % d = 0
  · simp [h]
  · simp [h, bne_iff_ne.mpr h]

theorem shiftLeft_bne_zero (a : BitVec 64) (hk : k ≤ 64) : (a <<< (64 - k) != 0) = (a.toNat % 2 ^ k != 0) := by
  have hpow : 2 ^ 64 = 2 ^ k * 2 ^ (64 - k) := by rw [← Nat.pow_add, Nat.add_sub_cancel' hk]
  rw [Bool.eq_iff_iff, bne_iff_ne, bne_iff_ne, ← toNat_inj.ne, toNat_shiftLeft, Nat.shiftLeft_eq,
    hpow, Nat.mul_mod_mul_right]
  simp

theorem shiftRight_or_flag (a : BitVec 64) (hd : d ≤ 64) :
    a >>> d ||| .ofNat 64 (a <<< (64 - d) != 0).toNat = .ofNat 64 (jam a.toNat (2 ^ d)) := by
  have hshift : a >>> d = .ofNat 64 (a.toNat / 2 ^ d) := by
    rw [← ofNat_shr a.isLt, ofNat_toNat, setWidth_eq]
  rw [shiftLeft_bne_zero a hd, jam_eq, ofNat_or, hshift]

theorem flag_eq_jam (a : BitVec 64) (hd : 63 ≤ d) :
    BitVec.ofNat 64 (a != 0).toNat = .ofNat 64 (jam a.toNat (2 ^ d)) := by
  have hpow : 2 ^ 63 ≤ 2 ^ d := Nat.pow_le_pow_right (by norm_num) hd
  by_cases h0 : a = 0
  · simp [h0, jam]
  · have hne : a.toNat ≠ 0 := fun h => h0 (eq_of_toNat_eq h)
    have hq : a.toNat / 2 ^ d < 2 := (Nat.div_lt_iff_lt_mul (by omega)).mpr (by omega)
    have hone : jam a.toNat (2 ^ d) = 1 := by
      unfold jam
      rcases Nat.le_one_iff_eq_zero_or_eq_one.mp (Nat.le_of_lt_succ hq) with hq | hq
      · rw [if_neg (by rwa [Nat.mod_eq_of_lt ((Nat.div_eq_zero_iff_lt (by omega)).mp hq)]), hq]
        rfl
      · rw [hq]
        split <;> rfl
    rw [hone, bne_iff_ne.mpr h0]
    rfl

/-- The routine that shifts to the right keeps what it loses in the last bit. -/
def Jams (env : Env σ) (index : Routine → Nat) : Prop :=
  ∀ a d, Returns env index .shiftRightJam [.i64 a, .i64 d]
    (.i64 (.ofNat 64 (jam a.toNat (2 ^ d.toNat))))

theorem does_shiftRightJam (hrules : env.Obeys integerRules) (a d : BitVec 64) :
    Does env index true shiftRightJamCode [] [.i64 a, .i64 d]
      (.out (.ok [.i64 (.ofNat 64 (jam a.toNat (2 ^ d.toNat)))])) := by
  have hlt63 : (if d.ult 63 = true then 1 else 0 : BitVec 32) ≠ 0 ↔ d.toNat < 63 := by simp [BitVec.ult]
  refine .guard (d = 0) hrules rfl (by simp) rfl (fun h => .ret (.eval hrules rfl) ?_) fun h => ?_
  · simp [h, jam, Nat.mod_one]
  have hpos : d.toNat ≠ 0 := fun h0 => h (eq_of_toNat_eq h0)
  by_cases hlt : d.toNat < 63
  · refine .finish (.choose _ hrules rfl hlt63 rfl rfl (fun _ => .eval hrules rfl) fun hge => absurd hlt hge) ?_
    have hsub : (64 - d).toNat % 64 = 64 - d.toNat := by
      simp
      omega
    rw [Nat.mod_eq_of_lt (by omega), ← shiftRight_or_flag a (by omega), ← hsub, setWidth_flag]
    rfl
  · refine .finish (.choose _ hrules rfl hlt63 rfl rfl (fun hlt' => absurd hlt' hlt) fun _ => .eval hrules rfl) ?_
    rw [← flag_eq_jam a (by omega), ← setWidth_flag]
    rfl

/-! ### Rounding -/

theorem roundHalfEven_two_mul (n : ℕ) (hh : 0 < h) :
    roundHalfEven n (2 * h) = if n % (2 * h) = h then 2 * ((n + h) / (2 * h) / 2) else (n + h) / (2 * h) := by
  have hdiv : (n + h) / (2 * h) = n / (2 * h) + if h ≤ n % (2 * h) then 1 else 0 := by
    have hn := Nat.div_add_mod n (2 * h)
    have hlt := Nat.mod_lt n (by omega : 0 < 2 * h)
    conv_lhs => rw [← hn, add_assoc, Nat.mul_add_div (by omega)]
    congr 1
    split
    · rw [Nat.div_eq_of_lt_le] <;> omega
    · exact Nat.div_eq_of_lt (by omega)
  unfold roundHalfEven
  grind

/-- The number of bits that rounding drops, without the half that decides. -/
theorem dropped_eq (w : Width) : 2 ^ dropped w = 2 * 2 ^ (dropped w - 1) := by
  cases w <;> decide

/-- Rounds off and puts the fields together. -/
def packRest (w : Width) : Code :=
  assign 4 (var 2 &&& nat (2 ^ dropped w - 1)) ++ (assign 2 ((var 2 + nat (2 ^ (dropped w - 1))) >>> nat (dropped w))
    ++ (when_ (rel .eq (var 4) (nat (2 ^ (dropped w - 1)))) (assign 2 (var 2 &&& lit (-2)))
    ++ (when_ (isZero (var 2)) (assign 1 0)
    ++ ((var 0 <<< nat (signPlace w)) + (var 1 <<< nat (format w).frac) + var 2))))

theorem does_packLast (hrules : env.Obeys integerRules) (w : Width) (s : ℕ) (hn : n < 2 ^ 64)
    (h : n = 0 → e = 0) (shift rest : Value) : Does env index true (when_ (isZero (var 2)) (assign 1 0)
        ++ ((var 0 <<< nat (signPlace w)) + (var 1 <<< nat (format w).frac) + var 2))
      [] [.i64 (.ofNat 64 s), .i64 (.ofNat 64 e), .i64 (.ofNat 64 n), shift, rest]
      (.out (.ok [.i64 (.ofNat 64 (s * 2 ^ signPlace w + e * 2 ^ (format w).frac + n))])) := by
  have hs : signPlace w % 2 ^ 64 % 64 = signPlace w := by cases w <;> decide
  have hf : (format w).frac % 2 ^ 64 % 64 = (format w).frac := by cases w <;> decide
  refine .fork (n = 0) hrules rfl ?_ rfl (fun _ => .eval hrules rfl)
    (fun h0 => .finish (.eval hrules rfl) ?_) (fun _ => .finish (.eval hrules rfl) ?_)
  · simpa using ofNat_inj hn (by decide : 0 < 2 ^ 64)
  · simp only [ofInt_lit, toNat_ofNat, ofNat_shl, hs, hf, ofNat_add_ofNat, h h0]
  · simp only [ofInt_lit, toNat_ofNat, ofNat_shl, hs, hf, ofNat_add_ofNat]

theorem does_packRest (hrules : env.Obeys integerRules) (w : Width) (s : ℕ) (hn : n < 2 ^ 63)
    (h : roundHalfEven n (2 ^ dropped w) = 0 → e = 0) (shift rest : Value) :
    Does env index true (packRest w) [] [.i64 (.ofNat 64 s), .i64 (.ofNat 64 e), .i64 (.ofNat 64 n),
      shift, rest] (.out (.ok [.i64 (.ofNat 64 (s * 2 ^ signPlace w + e * 2 ^ (format w).frac
        + roundHalfEven n (2 ^ dropped w)))])) := by
  have hd : dropped w % 2 ^ 64 % 64 = dropped w := by cases w <;> decide
  have hhalf : 2 ^ (dropped w - 1) < 2 ^ 62 := by cases w <;> decide
  have hsum : n + 2 ^ (dropped w - 1) < 2 ^ 64 := by omega
  have hround := roundHalfEven_two_mul n (Nat.two_pow_pos (dropped w - 1))
  rw [← dropped_eq] at hround
  have hq : (n + 2 ^ (dropped w - 1)) / 2 ^ dropped w < 2 ^ 64 := lt_of_le_of_lt (Nat.div_le_self _ _) hsum
  have hshift : (BitVec.ofNat 64 n + BitVec.ofInt 64 (((2 ^ (dropped w - 1) : ℕ) : ℤ).bmod (2 ^ 64))) >>>
      ((BitVec.ofInt 64 ((dropped w : ℤ).bmod (2 ^ 64))).toNat % 64) =
      BitVec.ofNat 64 ((n + 2 ^ (dropped w - 1)) / 2 ^ dropped w) := by
    rw [ofInt_lit, ofInt_lit, toNat_ofNat, hd, ofNat_add_ofNat, ofNat_shr hsum]
  refine .step hrules rfl (.step hrules rfl (.fork (n % 2 ^ dropped w = 2 ^ (dropped w - 1)) hrules rfl ?_ rfl
    (fun _ => .eval hrules rfl) (fun htie => ?_) fun htie => ?_))
  · have hmod : n % 2 ^ dropped w < 2 ^ 64 := lt_of_le_of_lt (Nat.mod_le _ _) (by omega)
    rw [flag_ne_zero, IntRel.holds, beq_iff_eq, ofInt_lit, ofInt_lit, ofNat_mask, ofNat_inj hmod (by omega)]
  · rw [if_pos htie] at hround
    rw [hround] at h ⊢
    have hlast : ∀ rest, Does env index true _ [] _ _ := does_packLast hrules w s (lt_of_le_of_lt (Nat.mul_div_le _ 2) hq) h shift
    rw [← ofNat_even hq, ← hshift] at hlast
    exact hlast _
  · rw [if_neg htie] at hround
    rw [hround] at h ⊢
    have hlast : ∀ rest, Does env index true _ [] _ _ := does_packLast hrules w s hq h shift
    rw [← hshift] at hlast
    exact hlast _

theorem round_le (w : Width) (h : n < 2 ^ 63) : roundHalfEven n (2 ^ dropped w) ≤ 2 * 2 ^ (format w).frac := by
  rw [dropped_eq, roundHalfEven_two_mul n (Nat.two_pow_pos _), ← dropped_eq]
  cases w <;> norm_num [dropped, format, Ieee.binary32, Ieee.binary64] <;> split <;> omega

/-- What rounding makes of a significand of 63 bits: one of the format, or the next power of two. -/
theorem round_bounds (w : Width) (hlow : 2 ^ 62 ≤ n) (hhigh : n < 2 ^ 63) :
    2 ^ (format w).frac ≤ roundHalfEven n (2 ^ dropped w) ∧
      (2 * 2 ^ (format w).frac ≤ roundHalfEven n (2 ^ dropped w) ↔ 2 ^ 63 ≤ n + 2 ^ (dropped w - 1)) := by
  rw [dropped_eq, roundHalfEven_two_mul n (Nat.two_pow_pos _), ← dropped_eq]
  cases w <;> norm_num [dropped, format, Ieee.binary32, Ieee.binary64] <;> split <;> omega

theorem signed_eq (w : Width) (neg : Bool) (p : ℕ) : (format w).signed neg p = neg.toNat * 2 ^ signPlace w + p := by
  cases neg <;> simp [Ieee.Format.signed, Ieee.Format.signBit, signPlace]

/-- A pattern with a sign put before it. -/
theorem signed_word (w : Width) (neg : Bool) (hp : p < 2 ^ signPlace w) :
    BitVec.ofNat 64 neg.toNat <<< ((BitVec.ofInt 64 ((signPlace w : ℤ).bmod (2 ^ 64))).toNat % 64) |||
      .ofInt 64 ((p : ℤ).bmod (2 ^ 64)) = .ofNat 64 ((format w).signed neg p) := by
  have hs : signPlace w % 2 ^ 64 % 64 = signPlace w := by cases w <;> decide
  rw [signed_eq, ofInt_lit, ofInt_lit, toNat_ofNat, hs, ofNat_shl, ← ofNat_or, ← Nat.shiftLeft_eq,
    Nat.shiftLeft_add_eq_or_of_lt hp]

/-- Packs what is tiny, too large or neither. -/
def packRounding (w : Width) : Code :=
  branch (rel .ltS (var 1) 0) (assign 2 (call .shiftRightJam [var 2, 0 - var 1]) ++ assign 1 0)
    (when_ (either (rel .gtS (var 1) (nat ((format w).topExp - 2)))
        (both (rel .eq (var 1) (nat ((format w).topExp - 2)))
          (rel .geU (var 2 + nat (2 ^ (dropped w - 1))) (nat (2 ^ 63)))))
      (ret (signed w 0 (format w).infinity)))
    ++ packRest w

theorem toInt_ofInt_small (hlow : -2 ^ 63 ≤ x) (hhigh : x < 2 ^ 63) : (BitVec.ofInt 64 x).toInt = x := by
  rw [toInt_ofInt]
  exact Int.bmod_eq_of_le (by omega) (by omega)

theorem slt_ofInt (hx : -2 ^ 63 ≤ x ∧ x < 2 ^ 63) (hy : -2 ^ 63 ≤ y ∧ y < 2 ^ 63) :
    (BitVec.ofInt 64 x).slt (.ofInt 64 y) = true ↔ x < y := by
  rw [slt_iff_toInt_lt, toInt_ofInt_small hx.1 hx.2, toInt_ofInt_small hy.1 hy.2]

/-- The test for an overflow: the exponent is too large, or it is the largest and rounding carries over. -/
theorem overflows (w : Width) (hlow : 2 ^ 62 ≤ n) (hhigh : n < 2 ^ 63) (he : e < 2 ^ 41) :
    ((BitVec.ofNat 64 ((format w).topExp - 2)).slt (.ofNat 64 e) || (BitVec.ofNat 64 e == .ofNat 64 ((format w).topExp - 2)
      && (BitVec.ofNat 64 (2 ^ 63)).ule (.ofNat 64 n + .ofNat 64 (2 ^ (dropped w - 1))))) = true ↔
      (format w).infinity ≤ e * 2 ^ (format w).frac + roundHalfEven n (2 ^ dropped w) := by
  have hround' := round_le w hhigh
  obtain ⟨hround, hcarry⟩ := round_bounds w hlow hhigh
  have htop : (format w).topExp < 2 ^ 12 := by cases w <;> decide
  have hhalf : 2 ^ (dropped w - 1) < 2 ^ 62 := by cases w <;> decide
  rw [Bool.or_eq_true, Bool.and_eq_true, ← ofInt_natCast, ← ofInt_natCast, slt_ofInt (by omega) (by omega),
    ofInt_natCast, ofInt_natCast, beq_iff_eq, ofNat_inj (by omega) (by omega), ofNat_add_ofNat,
    BitVec.ule, decide_eq_true_iff, toNat_ofNat, toNat_ofNat, Nat.mod_eq_of_lt (by omega),
    Nat.mod_eq_of_lt (by omega), ← hcarry]
  cases w <;> norm_num [format, Ieee.binary32, Ieee.binary64, Ieee.Format.topExp, Ieee.Format.infinity] at * <;> omega

theorem jam_lt (h : n / d < 2 ^ m) (hm : m ≠ 0) : jam n d < 2 ^ m := by
  unfold jam
  split
  · exact h
  · exact Nat.or_lt_two_pow h (Nat.one_lt_two_pow hm)

theorem does_packRounding (hrules : env.Obeys integerRules) (hjam : Jams env index)
    (w : Width) (neg : Bool) (hlow : 2 ^ 62 ≤ n) (hhigh : n < 2 ^ 63) (hx : |x| < 2 ^ 41)
    (shift rest : Value) :
    Does env index true (packRounding w) []
      [.i64 (.ofNat 64 neg.toNat), .i64 (.ofInt 64 x), .i64 (.ofNat 64 n), shift, rest]
      (.out (.ok [.i64 (.ofNat 64 ((format w).signed neg
        (min (x.toNat * 2 ^ (format w).frac + roundHalfEven n (2 ^ (dropped w + (-x).toNat))) (format w).infinity)))])) := by
  rw [abs_lt] at hx
  have hneg : (if (BitVec.ofInt 64 x).slt (.ofInt 64 0) = true then 1 else 0 : BitVec 32) ≠ 0 ↔ x < 0 := by
    rw [flag_ne_zero, slt_ofInt (by omega) (by omega)]
  by_cases hsign : x < 0
  · obtain ⟨k, rfl⟩ : ∃ k : ℕ, x = -k := ⟨x.natAbs, by omega⟩
    refine .append (.branch _ hrules rfl hneg rfl rfl
      (fun _ => .append (.append (.call (.eval hrules rfl) (hjam _ _)) (.eval hrules rfl)) (.eval hrules rfl))
      fun h => absurd hsign h) ?_
    have hdist : (0 - BitVec.ofInt 64 (-(k : ℤ))).toNat = k := by
      simp
      omega
    have hsig : BitVec.ofNat 64 (jam (BitVec.ofNat 64 n).toNat (2 ^ (0 - BitVec.ofInt 64 (-(k : ℤ))).toNat)) =
        BitVec.ofNat 64 (jam n (2 ^ k)) := by
      rw [hdist, toNat_ofNat, Nat.mod_eq_of_lt (by omega)]
    have hlt : jam n (2 ^ k) < 2 ^ 63 := jam_lt (lt_of_le_of_lt (Nat.div_le_self _ _) hhigh) (by decide)
    have hlast : ∀ rest, Does env index true _ [] _ _ :=
      does_packRest hrules w neg.toNat hlt (fun _ => rfl) shift
    rw [← hsig] at hlast
    have hround : roundHalfEven (jam n (2 ^ k)) (2 ^ dropped w) = roundHalfEven n (2 ^ (dropped w + k)) := by
      have hd : dropped w = (dropped w - 2) + 2 := by cases w <;> rfl
      rw [hd, Ieee.roundHalfEven_jam n (Nat.two_pow_pos k), ← Nat.pow_add, Nat.add_comm]
    have hsmall : roundHalfEven n (2 ^ (dropped w + k)) ≤ (format w).infinity := by
      rw [← hround]
      exact le_trans (round_le w hlt) (by cases w <;> decide)
    rw [hround, Nat.zero_mul, Nat.add_zero] at hlast
    rw [neg_neg, Int.toNat_natCast, Int.toNat_of_nonpos (by omega), Nat.zero_mul, Nat.zero_add, Nat.min_eq_left hsmall, signed_eq]
    exact hlast _
  · obtain ⟨e, rfl⟩ := Int.eq_ofNat_of_zero_le (not_lt.mp hsign)
    rw [ofInt_natCast] at hneg ⊢
    have htest := overflows w hlow hhigh (by omega : e < 2 ^ 41)
    by_cases hbig : (format w).infinity ≤ e * 2 ^ (format w).frac + roundHalfEven n (2 ^ dropped w)
    · refine .stop (.branch _ hrules rfl hneg rfl rfl (fun h => absurd h hsign)
        fun _ => .under _ hrules rfl ?_ rfl (fun _ => .ret (.eval hrules rfl) ?_) fun h => absurd hbig h)
      · simpa only [IntRel.holds, ofInt_lit, flag_and, flag_or, flag_ne_zero] using htest
      · have hexp : (-(e : ℤ)).toNat = 0 := by omega
        rw [hexp, Int.toNat_natCast, Nat.add_zero, Nat.min_eq_right hbig,
          signed_word w neg (by cases w <;> decide : (format w).infinity < _)]
    · refine .append (.branch _ hrules rfl hneg rfl rfl (fun h => absurd h hsign)
        fun _ => .under _ hrules rfl ?_ rfl (fun h => absurd h hbig) fun _ => rfl) ?_
      · simpa only [IntRel.holds, ofInt_lit, flag_and, flag_or, flag_ne_zero] using htest
      · have hpos : roundHalfEven n (2 ^ dropped w) = 0 → e = 0 := fun h0 => by
          have := (round_bounds w hlow hhigh).1
          have := Nat.two_pow_pos (format w).frac
          omega
        have hexp : (-(e : ℤ)).toNat = 0 := by omega
        rw [hexp, Int.toNat_natCast, Nat.add_zero, Nat.min_eq_left (Nat.le_of_not_le hbig), signed_eq, ← Nat.add_assoc]
        exact does_packRest hrules w neg.toNat hhigh hpos shift rest

/-- How far a number has to be shifted until its leading bit is the last but one of a word. -/
theorem clz_ofNat (h0 : n ≠ 0) (h : n < 2 ^ 63) : ∃ k ≤ 62,
    (BitVec.ofNat 64 n).clz = .ofNat 64 (k + 1) ∧ 2 ^ 62 ≤ n * 2 ^ k ∧ n * 2 ^ k < 2 ^ 63 := by
  have hn : (BitVec.ofNat 64 n).toNat = n := by
    rw [toNat_ofNat, Nat.mod_eq_of_lt (by omega)]
  have hlow := two_pow_sub_clz_le_toNat_of_ne_zero (x := BitVec.ofNat 64 n) (by decide)
    (fun h => h0 (by rw [← hn, h]; rfl))
  have hhigh := toNat_lt_two_pow_sub_clz (x := BitVec.ofNat 64 n)
  rw [hn] at hlow hhigh
  generalize hL : (BitVec.ofNat 64 n).clz.toNat = L at hlow hhigh
  have hL1 : 64 - 1 - L < 63 := (Nat.pow_lt_pow_iff_right (by decide)).mp (lt_of_le_of_lt hlow h)
  have hL2 : 0 < 64 - L := by
    by_contra hle
    rw [Nat.eq_zero_of_not_pos hle] at hhigh
    omega
  obtain ⟨k, rfl⟩ : ∃ k, L = k + 1 := ⟨L - 1, by omega⟩
  have hk : 62 = 62 - k + k := by omega
  have hk' : 63 = 63 - k + k := by omega
  refine ⟨k, by omega, eq_of_toNat_eq ?_, ?_, ?_⟩
  · rw [hL, toNat_ofNat, Nat.mod_eq_of_lt (by omega)]
  · rw [hk, Nat.pow_add]
    exact Nat.mul_le_mul_right _ (by simpa [Nat.sub_sub, Nat.add_comm] using hlow)
  · rw [hk', Nat.pow_add]
    exact Nat.mul_lt_mul_of_pos_right (by simpa [Nat.sub_sub, Nat.add_comm] using hhigh) (Nat.two_pow_pos k)

theorem does_pack (hrules : env.Obeys integerRules) (hjam : Jams env index)
    (w : Width) (neg : Bool) (hsig : sig < 2 ^ 63) (hexp : |exp| < 2 ^ 40) :
    Does env index true (packCode w) []
      [.i64 (.ofNat 64 neg.toNat), .i64 (.ofInt 64 exp), .i64 (.ofNat 64 sig), .i64 0, .i64 0]
      (.out (.ok [.i64 (.ofNat 64 ((format w).roundDyadic neg sig (exp - (format w).bias - 61)))])) := by
  have hs : signPlace w % 2 ^ 64 % 64 = signPlace w := by cases w <;> decide
  rw [Ieee.roundDyadic_eq]
  unfold packCode
  simp only [Code.append_assoc]
  refine .guard (sig = 0) hrules rfl ?_ rfl (fun h0 => .ret (.eval hrules rfl) ?_) fun h0 => ?_
  · simpa using ofNat_inj (by omega : sig < 2 ^ 64) (by decide : 0 < 2 ^ 64)
  · rw [ofInt_lit, toNat_ofNat, hs, ofNat_shl, h0, signed_eq]
    simp [Ieee.Format.magnitude]
  obtain ⟨k, hk, hclz, hlow, hhigh⟩ := clz_ofNat h0 hsig
  have hvalue : ((sig * 2 ^ k : ℕ) : ℚ) * 2 ^ (exp - k - (format w).bias - 61) = sig * 2 ^ (exp - (format w).bias - 61) := by
    rw [Nat.cast_mul, mul_assoc, Nat.cast_pow, ← zpow_natCast, Nat.cast_ofNat, ← zpow_add₀ two_ne_zero]
    congr 2
    ring
  rw [← hvalue, Ieee.magnitude_normal (q := exp - k - (format w).bias - 61) _ hlow hhigh
    (by cases w <;> decide) rfl]
  have hone : (BitVec.ofNat 64 sig).clz - 1 = .ofNat 64 k := by
    rw [hclz, ofNat_add]
    exact BitVec.add_sub_cancel _ _
  have hshift : BitVec.ofNat 64 (sig * 2 ^ k) = BitVec.ofNat 64 sig <<< (((BitVec.ofNat 64 sig).clz - 1).toNat % 64) := by
    rw [hone, toNat_ofNat, Nat.mod_eq_of_lt (by omega), Nat.mod_eq_of_lt (by omega), ofNat_shl]
  have hless : BitVec.ofInt 64 (exp - k) = .ofInt 64 exp - ((BitVec.ofNat 64 sig).clz - 1) := by
    rw [hone, ← ofInt_natCast, ofInt_sub]
  have hlast : ∀ shift rest, Does env index true (packRounding w) [] _ _ :=
    does_packRounding hrules hjam w neg hlow hhigh (x := exp - k) (by rw [abs_lt] at hexp ⊢; omega)
  rw [hshift, hless] at hlast
  exact .step hrules rfl (.step hrules rfl (.step hrules rfl (hlast _ _)))

/-- The routines that other ones round with return what they should. -/
structure Rounds (env : Env σ) (index : Routine → Nat) (w : Width) : Prop where
  rules : env.Obeys integerRules
  pack : ∀ (neg : Bool) {e : ℤ} {n : ℕ}, |e| < 2 ^ 40 → n < 2 ^ 63 → Returns env index (.pack w)
    [.i64 (.ofNat 64 neg.toNat), .i64 (.ofInt 64 e), .i64 (.ofNat 64 n)]
    (.i64 (.ofNat 64 ((format w).signed neg ((format w).magnitude (n * 2 ^ (e - (format w).bias - 61))))))

theorem rounds_of_lowered {m : Module} {w : Width} (henv : env.module = lowered m) (hrules : env.Obeys integerRules)
    (hpack : .pack w ∈ routinesFor m) : Rounds env (routineIndex m) w := by
  have hcall : .call .shiftRightJam ∈ (Routine.pack w).code.ops := by cases w <;> decide
  have hjam : Jams env (routineIndex m) := fun a d =>
    Does.computes henv (routinesFor_closed hpack hcall) rfl (does_shiftRightJam hrules a d)
  refine ⟨hrules, fun neg e n he hn => Does.computes henv hpack rfl ?_⟩
  rw [← Ieee.roundDyadic_eq]
  exact does_pack hrules hjam w neg hn he

/-- **Packing rounds correctly.**  What it returns is the pattern, with its sign, of the exact number rounded to the
nearest one of the format, ties to even. -/
theorem pack_rounds_to_nearest {m : Module} {w : Width} (henv : env.module = lowered m) (hrules : env.Obeys integerRules)
    (hpack : .pack w ∈ routinesFor m) (neg : Bool) {n : ℕ} {e : ℤ} (hn : n < 2 ^ 63) (he : |e| < 2 ^ 40) :
    Returns env (routineIndex m) (.pack w) [.i64 (.ofNat 64 neg.toNat), .i64 (.ofInt 64 e), .i64 (.ofNat 64 n)]
      (.i64 (.ofNat 64 ((format w).signed neg ((format w).magnitude (n * 2 ^ (e - w.pick 188 1084)))))) := by
  have hbias : (w.pick 188 1084 : ℤ) = (format w).bias + 61 := by cases w <;> rfl
  rw [hbias, ← sub_sub]
  exact (rounds_of_lowered henv hrules hpack).pack neg he hn

/-- Halfway between the largest subnormal number and the least normal one, whose pattern is even. -/
theorem pack_rounds_to_nearest_subnormal :
    Returns (integerEnv (lowered (operatorModule [.floatBin .x64 .add]))) (routineIndex (operatorModule [.floatBin .x64 .add]))
      (.pack .x64) [.i64 (.ofNat 64 true.toNat), .i64 (.ofInt 64 (-1)), .i64 (.ofNat 64 (2 ^ 63 - 512))]
      (.i64 (.ofNat 64 0x8010000000000000)) := by
  have hvalue : Ieee.binary64.signed true (Ieee.binary64.magnitude ((2 ^ 63 - 512 : ℕ) * 2 ^ (-1 - 1084 : ℤ))) =
      0x8010000000000000 := by
    decide +kernel
  rw [← hvalue]
  exact pack_rounds_to_nearest (module_integerEnv _) (obeys_integerEnv _) (by decide) true (by decide) (by decide)

end ScoreWasm.SoftFloat
