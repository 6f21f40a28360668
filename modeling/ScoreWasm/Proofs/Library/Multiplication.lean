import ScoreWasm.Library.All
import ScoreWasm.Proofs.Machine.Calculation

/-!
# Multiplication of 64-bit integers
-/

namespace ScoreWasm.Library

open Emit Word Machine

/-! ### Halves -/

theorem low_half (t : ℤ) : (wrap32 t).fmod 65536 = t % 65536 := by
  rw [Int.fmod_eq_emod_of_nonneg _ (by decide), wrap32_eq]
  omega

theorem high_half (t : ℤ) : (wrap32 t).fdiv 65536 % 65536 = t / 65536 % 65536 := by
  rw [Int.fdiv_eq_ediv_of_nonneg _ (by decide), wrap32_eq]
  omega

theorem wrap32_half (t : ℤ) : wrap32 (t % 65536) = t % 65536 := by
  rw [wrap32_eq]
  omega

theorem product_bounds {u v : ℤ} (hu : 0 ≤ u ∧ u < 65536) (hv : 0 ≤ v ∧ v < 65536) : 0 ≤ u * v ∧ u * v ≤ 65535 * 65535 :=
  ⟨Int.mul_nonneg hu.1 hv.1, Int.mul_le_mul (by omega) (by omega) hv.1 (by decide)⟩

/-- The high word of a product, from the products of halves. -/
theorem high_word (x y : ℤ) : x / 65536 % 65536 * (y / 65536 % 65536)
      + (x / 65536 % 65536 * (y % 65536) + x % 65536 * (y % 65536) / 65536 % 65536) / 65536 % 65536
      + (x % 65536 * (y / 65536 % 65536)
        + (x / 65536 % 65536 * (y % 65536) + x % 65536 * (y % 65536) / 65536 % 65536) % 65536) / 65536 % 65536 =
      x % 2 ^ 32 * (y % 2 ^ 32) / 2 ^ 32 := by
  have hx : x % 2 ^ 32 = x / 65536 % 65536 * 65536 + x % 65536 := by omega
  have hy : y % 2 ^ 32 = y / 65536 % 65536 * 65536 + y % 65536 := by omega
  have hhalf : ∀ i : ℤ, 0 ≤ i % 65536 ∧ i % 65536 < 65536 := fun i => by omega
  rw [hx, hy]
  have h₀₀ := product_bounds (hhalf x) (hhalf y)
  have h₁₀ := product_bounds (hhalf (x / 65536)) (hhalf y)
  have h₀₁ := product_bounds (hhalf x) (hhalf (y / 65536))
  generalize x % 65536 = u₀, x / 65536 % 65536 = u₁, y % 65536 = v₀, y / 65536 % 65536 = v₁ at *
  have hsum : (u₁ * 65536 + u₀) * (v₁ * 65536 + v₀) = u₁ * v₁ * 2 ^ 32 + (u₁ * v₀ + u₀ * v₁) * 65536 + u₀ * v₀ := by ring
  omega

/-- The word above the low one of a product, from the words of its factors. -/
theorem product_words (n m : ℤ) : wrap32 (n % 2 ^ 32 * (m % 2 ^ 32) / 2 ^ 32 + n * (m / 2 ^ 32) + n / 2 ^ 32 * m) =
    wrap32 (n * m / 2 ^ 32) := by
  have hn := Int.mul_ediv_add_emod n (2 ^ 32)
  have hm := Int.mul_ediv_add_emod m (2 ^ 32)
  have hproduct : n * m = n % 2 ^ 32 * (m % 2 ^ 32) + (n % 2 ^ 32 * (m / 2 ^ 32) + n / 2 ^ 32 * m) * 2 ^ 32 := by
    linear_combination -m * hn - (n % 2 ^ 32) * hm
  have hsum : n % 2 ^ 32 * (m % 2 ^ 32) / 2 ^ 32 + n * (m / 2 ^ 32) + n / 2 ^ 32 * m =
      n * m / 2 ^ 32 + n / 2 ^ 32 * (m / 2 ^ 32) * 2 ^ 32 := by
    rw [hproduct, Int.add_mul_ediv_right _ _ (by decide)]
    linear_combination -(m / 2 ^ 32) * hn
  rw [hsum]
  exact wrap32_congr (Int.add_mul_emod_self_right ..)

/-! ### The routines -/

/-- The words of a number, modulo `2 ^ 64`, are in a register and in its high one. -/
def HoldsWide (b : Scoreboard) (r : Reg) (n : ℤ) : Prop :=
  b.reg r = some (wrap32 n) ∧ b.reg r.high = some (wrap32 (n / 2 ^ 32))

theorem HoldsWide.keeps {T : List Score} {b b' : Scoreboard} {r : Reg} {n : ℤ} (h : HoldsWide b r n)
    (hk : b.Keeps T b') (hr : r.score ∉ T ∧ r.high.score ∉ T) : HoldsWide b' r n :=
  ⟨(hk.reg hr.1).trans h.1, (hk.reg hr.2).trans h.2⟩

theorem HoldsWide.of_emod {b : Scoreboard} {r : Reg} {m n : ℤ} (h : HoldsWide b r n) (hm : m % 2 ^ 64 = n % 2 ^ 64) : HoldsWide b r m := by
  simp only [HoldsWide, wrap32_eq] at h ⊢
  rw [h.1, h.2, Option.some_inj, Option.some_inj]
  omega

/-- The registers that multiplication works with. -/
def multiplyRegisters : List Reg :=
  ["%u0", "%u1", "%v0", "%v1", "%ut", "%uk", "%uw", "%uc", "%uh", "%q", .high "%q"]

@[simp] theorem name_half : (const 65536).name = "%c65536" := rfl

section Multiplication

variable {p : Program} {ns : String} (hp : ∀ r ∈ multiplyRoutines ns, p.Has ns r.1 r.2)
  {b : Scoreboard} (hb : b.Live) (hc : b.reg (const 65536) = some 65536)

include hp hb hc

theorem calculates_highProduct {x y : ℤ} (hx : b.reg "%x" = some x) (hy : b.reg "%y" = some y) :
    Calculates p (multiplyRegisters.map Reg.score) (inNamespace ns "rt/i64/mulhi_u") b 36
      (fun b' => b'.reg "%uh" = some (wrap32 (x % 2 ^ 32 * (y % 2 ^ 32) / 2 ^ 32))) := by
  refine .of_script (hp _ (.head _)) (by simp [splitHalves, productInto, highHalfInto]) (.whole ?_ (by decide +kernel) (by decide +kernel))
  simp [splitHalves, productInto, highHalfInto, copy_eq, Reg.name, ScoreOp.outcome?, hb, hx, hy, hc]
  simp only [wrap32_wrap32, wrap32_add, low_half, high_half, wrap32_half]
  exact congrArg wrap32 (high_word x y)

theorem calculates_multiply {x y : ℤ} (hx : HoldsWide b "%x" x) (hy : HoldsWide b "%y" y) :
    Calculates p (multiplyRegisters.map Reg.score) (inNamespace ns "rt/i64/mul") b 50 (fun b' => HoldsWide b' "%q" (x * y)) := by
  refine .of_script (hp _ (.tail _ (.head _))) (by simp [productInto]) ?_
  simp only [Script.steps_join_cons, Emit.call, Script.steps_command, List.cons_append, List.nil_append]
  refine .call (List.Subset.refl _) (calculates_highProduct hp hb hc hx.1 hy.1) fun b1 hkeeps hhigh => ?_
  rw [wrap32_emod, wrap32_emod] at hhigh
  have hx0 := (hkeeps.reg (by decide)).trans hx.1
  have hx1 := (hkeeps.reg (by decide)).trans hx.2
  have hy0 := (hkeeps.reg (by decide)).trans hy.1
  have hy1 := (hkeeps.reg (by decide)).trans hy.2
  refine .whole ?_ (by decide +kernel) (by decide +kernel)
  simp [productInto, copy_eq, Reg.name, ScoreOp.outcome?, hkeeps.live hb, hx0, hx1, hy0, hy1, hhigh, HoldsWide]
  simp only [wrap32, Int.bmod_bmod, Int.bmod_add_bmod, Int.add_bmod_bmod, Int.bmod_mul_bmod, Int.mul_bmod_bmod]
  exact ⟨trivial, product_words x y⟩

end Multiplication

end ScoreWasm.Library
