import ScoreWasm.Proofs.SoftFloat.Packing

/-!
# Operands of routines

A routine on doubles takes its operands apart into fields.  What their variables then hold are the fields of
the patterns, and the numbers that the patterns stand for are given by these fields.
-/

namespace ScoreWasm.SoftFloat

open Wasm Code BitVec

section Fields

variable (w : Width) (x : BitVec 64)

/-- The exponent field of a word. -/
abbrev expOf : ℕ := (format w).expOf x.toNat

/-- The fraction field of a word. -/
abbrev fracOf : ℕ := (format w).fracOf x.toNat

/-- The sign of a word. -/
abbrev negOf : Bool := (format w).isNegative x.toNat

/-- The significand of a word. -/
abbrev sigOf : ℕ := (format w).sigOf x.toNat

/-- Whether a word is a pattern of a width. -/
abbrev IsPattern : Prop := x.toNat < 2 ^ (signPlace w + 1)

theorem expOf_lt : expOf w x < 2 ^ 11 := by
  have hlt : expOf w x < 2 ^ (format w).exp := Nat.mod_lt _ (by positivity)
  exact lt_of_lt_of_le hlt (by cases w <;> decide)

theorem fracOf_lt : fracOf w x < 2 ^ (format w).frac := Nat.mod_lt _ (by positivity)

theorem sigOf_lt : sigOf w x < 2 ^ 53 :=
  lt_of_lt_of_le ((format w).sigOf_lt x.toNat) (by cases w <;> decide)

theorem negOf_toNat (hx : IsPattern w x) : (negOf w x).toNat = x.toNat / 2 ^ signPlace w := by
  have hlt : x.toNat / 2 ^ signPlace w < 2 := Nat.div_lt_of_lt_mul (by rwa [← Nat.pow_succ])
  show (x.toNat / 2 ^ signPlace w % 2 == 1).toNat = _
  rcases Nat.le_one_iff_eq_zero_or_eq_one.mp (Nat.le_of_lt_succ hlt) with h | h <;> rw [h] <;> rfl

theorem toNat_mod : x.toNat % 2 ^ signPlace w = expOf w x * 2 ^ (format w).frac + fracOf w x := by
  rw [signPlace, Nat.pow_add, Nat.mod_mul, Nat.add_comm, Nat.mul_comm]
  rfl

theorem word_eq : x = .ofNat 64 x.toNat := by simp

variable {w x}

end Fields

/-! ### Fields in variables -/

/-- A number as it stands in code. -/
def literal (n : ℕ) : BitVec 64 := .ofInt 64 ((n : ℤ).bmod (2 ^ 64))

theorem literal_eq (n : ℕ) : literal n = .ofNat 64 n := ofInt_lit n

theorem toNat_literal {n : ℕ} (h : n < 64) : (literal n).toNat % 64 = n := by
  rw [literal_eq, toNat_ofNat, Nat.mod_mod_of_dvd _ (by decide), Nat.mod_eq_of_lt h]

theorem shr_literal (x : BitVec 64) {k : ℕ} (h : k < 64) : x >>> ((literal k).toNat % 64) = .ofNat 64 (x.toNat / 2 ^ k) := by
  rw [toNat_literal h, ← ofNat_shr x.isLt, ← word_eq]

theorem and_literal (x : BitVec 64) (k : ℕ) : x &&& literal (2 ^ k - 1) = .ofNat 64 (x.toNat % 2 ^ k) := by
  rw [literal_eq, ← ofNat_mask, ← word_eq]

theorem or_literal {m k : ℕ} (h : m < 2 ^ k) : .ofNat 64 m ||| literal (2 ^ k) = .ofNat 64 (m + 2 ^ k) := by
  have hadd := Nat.two_pow_add_eq_or_of_lt h 1
  rw [Nat.mul_one] at hadd
  rw [literal_eq, ← ofNat_or, Nat.add_comm, hadd, Nat.or_comm]

section

variable {n k : ℕ} (hn : n < 2 ^ 64) (hk : k < 2 ^ 64)
include hn hk

theorem eq_literal : (if (BitVec.ofNat 64 n == literal k) = true then 1 else 0 : BitVec 32) ≠ 0 ↔ n = k := by
  rw [flag_ne_zero, beq_iff_eq, literal_eq, ofNat_inj hn hk]

theorem ne_literal : (if (BitVec.ofNat 64 n != literal k) = true then 1 else 0 : BitVec 32) ≠ 0 ↔ ¬n = k := by
  rw [flag_ne_zero, bne_iff_ne, literal_eq, Ne, ofNat_inj hn hk]

theorem geU_literal : (if (literal k).ule (.ofNat 64 n) = true then 1 else 0 : BitVec 32) ≠ 0 ↔ k ≤ n := by
  rw [flag_ne_zero, literal_eq, BitVec.ule, decide_eq_true_iff, toNat_ofNat, toNat_ofNat,
    Nat.mod_eq_of_lt hn, Nat.mod_eq_of_lt hk]

theorem gtU_literal : (if (literal k).ult (.ofNat 64 n) = true then 1 else 0 : BitVec 32) ≠ 0 ↔ k < n := by
  rw [flag_ne_zero, literal_eq, BitVec.ult, decide_eq_true_iff, toNat_ofNat, toNat_ofNat,
    Nat.mod_eq_of_lt hn, Nat.mod_eq_of_lt hk]

theorem ltU_literal : (if (BitVec.ofNat 64 n).ult (literal k) = true then 1 else 0 : BitVec 32) ≠ 0 ↔ n < k := by
  rw [flag_ne_zero, literal_eq, BitVec.ult, decide_eq_true_iff, toNat_ofNat, toNat_ofNat,
    Nat.mod_eq_of_lt hn, Nat.mod_eq_of_lt hk]

end

theorem either_iff {x y : BitVec 32} {P Q : Prop} (hP : x ≠ 0 ↔ P) (hQ : y ≠ 0 ↔ Q) : x ||| y ≠ 0 ↔ P ∨ Q := by
  rw [← hP, ← hQ]
  exact or_eq_zero_iff.not.trans not_and_or

theorem both_iff {b c : Bool} {P Q : Prop} (hP : (if b = true then 1 else 0 : BitVec 32) ≠ 0 ↔ P)
    (hQ : (if c = true then 1 else 0 : BitVec 32) ≠ 0 ↔ Q) :
    (if b = true then 1 else 0 : BitVec 32) &&& (if c = true then 1 else 0) ≠ 0 ↔ P ∧ Q := by
  rw [← hP, ← hQ]
  cases b <;> cases c <;> decide

theorem low_word (b : Bool) : (BitVec.ofNat 64 b.toNat).setWidth 32 = if b = true then 1 else 0 := by
  cases b <;> rfl

theorem low_flag (b : Bool) : (BitVec.ofNat 64 b.toNat).setWidth 32 ≠ 0 ↔ b = true := by
  rw [low_word, flag_ne_zero]

theorem positive_iff (neg : Bool) :
    (if (BitVec.ofNat 64 neg.toNat == 0) = true then 1 else 0 : BitVec 32) ≠ 0 ↔ neg = false := by
  cases neg <;> decide

section Words

variable (w : Width) (x : BitVec 64)

theorem sign_word (hx : IsPattern w x) : x >>> ((literal (signPlace w)).toNat % 64) = .ofNat 64 (negOf w x).toNat := by
  rw [shr_literal x (by cases w <;> decide), negOf_toNat w x hx]

theorem exp_word : x >>> ((literal (format w).frac).toNat % 64) &&& literal (format w).topExp = .ofNat 64 (expOf w x) := by
  rw [shr_literal x (by cases w <;> decide), literal_eq, Ieee.Format.topExp, ofNat_mask]
  rfl

theorem isSpecial_iff : (if (BitVec.ofNat 64 (expOf w x) == literal (format w).topExp) = true then 1 else 0 : BitVec 32) ≠ 0
    ↔ expOf w x = (format w).topExp :=
  eq_literal (lt_trans (expOf_lt w x) (by decide)) (by cases w <;> decide)

theorem nonzero_iff : (if (BitVec.ofNat 64 (fracOf w x) != literal 0) = true then 1 else 0 : BitVec 32) ≠ 0 ↔
    ¬fracOf w x = 0 :=
  ne_literal (lt_of_lt_of_le (fracOf_lt w x) (by cases w <;> decide)) (by decide)

theorem fracOf_iff : (if (BitVec.ofNat 64 (fracOf w x) == 0) = true then 1 else 0 : BitVec 32) ≠ 0 ↔ fracOf w x = 0 :=
  eq_literal (k := 0) (lt_of_lt_of_le (fracOf_lt w x) (by cases w <;> decide)) (by decide)

theorem isZero_iff : (if (x &&& literal (2 ^ signPlace w - 1) == literal 0) = true then 1 else 0 : BitVec 32) ≠ 0 ↔
    sigOf w x = 0 := by
  rw [and_literal x, eq_literal (lt_of_le_of_lt (Nat.mod_le _ _) x.isLt) (by decide), toNat_mod, sigOf, Ieee.Format.sigOf]
  split
  next h => simp [h]
  next h => simp [h]

end Words

/-- The floating-point number of a width with a pattern. -/
def floatOf : Width → BitVec 64 → Value
  | .x64, x => .f64 x
  | .x32, x => .f32 (x.setWidth 32)

variable {σ : Type} {env : Env σ} {index : Routine → Nat} {w : Width} {x : BitVec 64}

section

variable (hrules : env.Obeys integerRules)
include hrules

theorem does_toBits (hx : IsPattern w x) (locals : List Value) :
    Does env index false (toBits w (var 0)) [] (floatOf w x :: locals) (.on [.i64 x] (floatOf w x :: locals)) := by
  refine .eval hrules ?_
  cases w with
  | x64 => rfl
  | x32 =>
    have hword : (x.setWidth 32).setWidth 64 = x := by
      have : x.toNat < 2 ^ 32 := hx
      bv_omega
    show some ([Value.i64 ((x.setWidth 32).setWidth 64)], _) = _
    rw [hword]

theorem does_fromBits (w : Width) {c : Code} {stack locals stack' locals' : List Value}
    (h : Does env index false c stack locals (.on (.i64 x :: stack') locals')) :
    Does env index false (fromBits w c) stack locals (.on (floatOf w x :: stack') locals') := by
  cases w with
  | x64 => exact h.append (.eval hrules rfl)
  | x32 => exact (h.append (.eval hrules rfl)).append (.eval hrules rfl)

theorem does_openOperand (hx : IsPattern w x) {v1 v2 v3 v4 : Value} (locals : List Value) :
    Does env index false (opX.load w ++ opX.unpack w) [] (floatOf w x :: v1 :: v2 :: v3 :: v4 :: locals)
      (.on [] (floatOf w x :: .i64 x :: .i64 (.ofNat 64 (expOf w x)) :: .i64 (.ofNat 64 (fracOf w x)) ::
        .i64 (.ofNat 64 (negOf w x).toNat) :: locals)) := by
  simp only [← sign_word w x hx, ← exp_word, fracOf, Ieee.Format.fracOf, ← and_literal]
  exact ((does_toBits hrules hx _).append (.eval hrules rfl)).append (.eval hrules rfl)

end

theorem set_eq_self {α : Type} {l : List α} {k : ℕ} {x : α} (h : l[k]? = some x) : l.set k x = l := by
  obtain ⟨hk, rfl⟩ := List.getElem?_eq_some_iff.mp h
  exact List.set_getElem_self hk

/-- The hidden bit of a number that is not subnormal, and the exponent of those that are. -/
theorem does_unhide (hrules : env.Obeys integerRules) (w : Width) (o : Operand) {locals : List Value} {e m : ℕ}
    (hexp : locals[o.exp]? = some (.i64 (.ofNat 64 e))) (hsig : locals[o.sig]? = some (.i64 (.ofNat 64 m)))
    (hne : o.exp ≠ o.sig) (he : e < 2 ^ 64) (hm : m < 2 ^ (format w).frac) :
    Does env index false (o.unhide w) [] locals (.on [] ((locals.set o.exp (.i64 (.ofNat 64 (max e 1)))).set o.sig
      (.i64 (.ofNat 64 (if e = 0 then m else m + 2 ^ (format w).frac))))) := by
  have htest : evaluate integerRules (isZero (var o.exp)).ops [] locals =
      some ([.flag (BitVec.ofNat 64 e == literal 0)], locals) := (evaluate_var hexp).trans rfl
  refine .branch (e = 0) hrules htest (eq_literal he (by decide)) rfl rfl (fun h0 => ?_) fun h0 => ?_
  · have hset : evaluate integerRules (assign o.exp 1).ops [] locals =
        some ([], locals.set o.exp (.i64 (.ofNat 64 (max e 1)))) := by
      rw [h0]
      rfl
    rw [if_pos h0, set_eq_self (by rw [List.getElem?_set_ne hne, hsig])]
    exact .eval hrules hset
  · have hset : evaluate integerRules (assign o.sig (var o.sig ||| nat (2 ^ (format w).frac))).ops [] locals =
        some ([], locals.set o.sig (.i64 (.ofNat 64 (m + 2 ^ (format w).frac)))) := by
      rw [← or_literal hm]
      exact (evaluate_var hsig).trans rfl
    rw [if_neg h0, Nat.max_eq_left (by omega), set_eq_self hexp]
    exact .eval hrules hset

end ScoreWasm.SoftFloat
