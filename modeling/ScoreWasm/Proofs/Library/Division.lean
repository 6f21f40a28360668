import ScoreWasm.Proofs.Library.Multiplication

/-!
# Division of 64-bit integers
-/

namespace ScoreWasm.Library

open Emit Word Machine List

attribute [local simp] wrap32_wrap32 wrap32_add add_wrap32 wrap32_sub sub_wrap32

/-- The registers an unsigned division writes. -/
def divisionRegisters : List Reg :=
  ["%q", .high "%q", "%rem", .high "%rem", "%el", "%eh", "%en", "%eyl", "%eyh", "%eo", "%ec", "%eb", "%eu", "%ev"]

/-- Where division stands: the quotient and the remainder so far, what is left of the dividend in the high bits of a
number, and how many steps there are to come. -/
@[mk_iff] structure Divides (d q r e : ℤ) (k : ℕ) (b : Scoreboard) : Prop where
  live : b.Live
  least : b.reg (const minInt) = some minInt
  divisor : HoldsWide b "%y" d
  quotient : HoldsWide b "%q" q
  remainder : HoldsWide b "%rem" r
  low : b.reg "%el" = some (wrap32 e)
  high : b.reg "%eh" = some (wrap32 (e / 2 ^ 32))
  biasedLow : b.reg "%eyl" = some (wrap32 (d + 2 ^ 31))
  biasedHigh : b.reg "%eyh" = some (wrap32 (d / 2 ^ 32 + 2 ^ 31))
  count : b.reg "%en" = some (k : ℤ)

variable {p : Program} {ns path : String} {b b' : Scoreboard} {d q r e n : ℤ} {k j l : ℕ}

theorem negative_bit (n : ℤ) : (if wrap32 n ≤ -1 then 1 else 0) = n / 2 ^ 31 % 2 := by
  rw [wrap32_eq]
  split <;> omega

@[simp] theorem name_least : (const minInt).name = "%c-2147483648" := rfl

@[simp] theorem name_minus : (const (-1)).name = "%c-1" := rfl

theorem calculated?_shift (h : Divides d q r e k b) (hr : 0 ≤ r ∧ r < 2 ^ 64) (he : 0 ≤ e ∧
    e < 2 ^ 64) : ∃ b', calculated? b ((divisionStepRoutine ns).2.steps.take 20) = some b' ∧
      Divides d (2 * q) (2 * r + e / 2 ^ 63) (2 * e - e / 2 ^ 63 * 2 ^ 64) k b' ∧
      b'.reg "%eo" = some (r / 2 ^ 63) ∧ b'.reg "%ec" = some 0 ∧
      b'.reg "%ev" = some (wrap32 (2 * r + e / 2 ^ 63 + 2 ^ 31)) ∧
      b'.reg "%eu" = some (wrap32 ((2 * r + e / 2 ^ 63) / 2 ^ 32 + 2 ^ 31)) := by
  simp only [divides_iff, HoldsWide] at h
  simp [divisionStepRoutine, doublePair, test, copy_eq, Reg.name, ScoreOp.outcome?, h, isNegative,
    atMost, met?, Emit.set, negative_bit, divides_iff, HoldsWide]
  simp only [wrap32_eq, minInt]
  omega

/-- Whether the divisor fits, by words that compare as signed numbers the way those of the operands do as unsigned ones. -/
theorem fits_eq (hn : 0 ≤ n ∧ n < 2 ^ 65) (hd : 0 ≤ d ∧ d < 2 ^ 64) : (if n / 2 ^ 64 = 1 then some (wrap32 1)
      else if wrap32 (n / 2 ^ 32 + 2 ^ 31) = wrap32 (d / 2 ^ 32 + 2 ^ 31) ∧
        wrap32 (d + 2 ^ 31) ≤ wrap32 (n + 2 ^ 31) then some (wrap32 1)
      else if wrap32 (d / 2 ^ 32 + 2 ^ 31) < wrap32 (n / 2 ^ 32 + 2 ^ 31) then some (wrap32 1) else some 0) =
      some (if d ≤ n then 1 else 0) := by
  simp only [wrap32_eq]
  split_ifs <;> first | rfl | omega

theorem calculated?_compare (h : Divides d q r e k b) (hr : 0 ≤ r ∧ r < 2 ^ 65) (hd : 0 ≤ d ∧ d < 2 ^ 64)
    (heo : b.reg "%eo" = some (r / 2 ^ 64)) (hec : b.reg "%ec" = some 0) (hev : b.reg "%ev" = some (wrap32 (r + 2 ^ 31)))
    (heu : b.reg "%eu" = some (wrap32 (r / 2 ^ 32 + 2 ^ 31))) :
    ∃ b', calculated? b (((divisionStepRoutine ns).2.steps.drop 20).take 3) = some b' ∧ Divides d q r e k b' ∧
      b'.reg "%ev" = some (wrap32 (r + 2 ^ 31)) ∧ b'.reg "%ec" = some (if d ≤ r then 1 else 0) := by
  have hfits := fits_eq hr hd
  simp only [divides_iff, HoldsWide] at h
  simp [divisionStepRoutine, doublePair, test, copy_eq, Reg.name, h, heo, hec, hev, heu,
    met?, Emit.cmp, is, Emit.set, Comparison.holds?, contains_exactly, divides_iff, HoldsWide]
  exact hfits

theorem next_bit (e : ℤ) (h : j + (k + 1) = 63) :
    e / 2 ^ j = e / 2 ^ 63 * 2 ^ (k + 1) + (2 * e - e / 2 ^ 63 * 2 ^ 64) / 2 ^ (j + 1) := by
  have hpow : (2 : ℤ) ^ 64 = 2 ^ (k + 1) * 2 ^ (j + 1) := by
    rw [← pow_add]
    congr 1
    omega
  have hsum : 2 * e - e / 2 ^ 63 * 2 ^ 64 = 2 * e + -(e / 2 ^ 63 * 2 ^ (k + 1)) * 2 ^ (j + 1) := by
    rw [hpow]
    ring
  rw [hsum, Int.add_mul_ediv_right _ _ (by positivity), pow_succ' 2 j, Int.mul_ediv_mul_of_pos _ _ (by decide)]
  ring

section Routines

variable (hp : ∀ r ∈ wideDivisionRoutines ns, p.Has ns r.1 r.2)

include hp

theorem calculates_subtract (h : Divides d (2 * q) r e k b) (hev : b.reg "%ev" = some (wrap32 (r + 2 ^ 31))) :
    Calculates p (divisionRegisters.map Reg.score) (inNamespace ns "rt/i64/divu_sub") b 5 (Divides d (2 * q + 1) (r - d) e k) := by
  simp only [divides_iff, HoldsWide] at h
  refine .of_script (hp _ (.tail _ (.tail _ (.head _)))) (by simp [test]) (.whole ?_ (by decide +kernel) (by decide +kernel))
  simp [test, Reg.name, h, hev, met?, Emit.cmp, Comparison.holds?, divides_iff, HoldsWide, add_eq "%q" (n := 1) (by decide), ScoreOp.outcome?]
  simp only [wrap32_eq]
  split_ifs <;> omega

/-- One step: the next bit of the dividend goes to the remainder, and the divisor is taken off where it fits. -/
theorem calculates_step (hk : k < 64) (hd : 0 < d ∧ d < 2 ^ 64) (hr : 0 ≤ r ∧ r < d) (he : 0 ≤ e ∧ e < 2 ^ 64) (h : Divides d q r e (k + 1) b)
    {Q : Scoreboard → Prop} {s t e' : ℤ} (hs : s = 2 * r + e / 2 ^ 63) (he' : e' = 2 * e - e / 2 ^ 63 * 2 ^ 64) (ht : t = if d ≤ s then 1 else 0)
    (hlast : ∀ b', k = 0 → Divides d (2 * q + t) (s - d * t) e' 0 b' → Q b')
    (hnext : ∀ b', 0 < k → Divides d (2 * q + t) (s - d * t) e' k b' →
      Calculates p (divisionRegisters.map Reg.score) (inNamespace ns "rt/i64/divu_step") b' l Q) :
    Calculates p (divisionRegisters.map Reg.score) (inNamespace ns "rt/i64/divu_step") b (l + 31) Q := by
  refine .of_script (hp _ (.tail _ (.head _))) (by simp [divisionStepRoutine, doublePair, test, Emit.call, jump]) ?_
  subst hs he'
  refine .mono (k := l + 11 + 20) (.after 20 (calculated?_shift h (by omega) he) ?_ ?_)
  · show targets (List.take 20 (divisionStepRoutine "").2.steps) ⊆ _
    decide +kernel
  rintro b1 ⟨h1, heo, hec, hev, heu⟩
  generalize hs : 2 * r + e / 2 ^ 63 = s at *
  generalize 2 * e - e / 2 ^ 63 * 2 ^ 64 = e' at *
  have heo : b1.reg "%eo" = some (s / 2 ^ 64) := by
    rw [heo]
    congr 1
    omega
  refine .after 3 (calculated?_compare h1 (by omega) (by omega) heo hec hev heu) ?_ ?_
  · show targets (List.take 3 (List.drop 20 (divisionStepRoutine "").2.steps)) ⊆ _
    decide +kernel
  rintro b2 ⟨h2, hev, hec⟩
  have hmet : met? b2 [is "%ec" 1] = some (decide (d ≤ s)) := by
    simp [met?, is, hec, contains_exactly]
  refine .given_call (l := 5) _ (Divides d (2 * q + t) (s - d * t) e' (k + 1)) hmet (List.Subset.refl _) (fun hfit => ?_) (fun hfit => ?_) fun b3 _ h3 => ?_
  · rw [if_pos (of_decide_eq_true hfit)] at ht
    subst ht
    rw [Int.mul_one]
    exact calculates_subtract hp h2 hev
  · rw [if_neg (of_decide_eq_false hfit)] at ht
    subst ht
    simpa using h2
  show Completes p _ [.command _ (.ok (.addScore (Reg.score "%en") (-1))), _] b3 _ Q
  refine .after 1 (R := Divides d (2 * q + t) (s - d * t) e' k) ?_ (by show targets [_] ⊆ _; decide) fun b4 h4 => ?_
  · simp only [divides_iff, HoldsWide] at h3
    simp [Reg.name, h3, divides_iff, HoldsWide]
    rw [wrap32_eq]
    omega
  have hmet : met? b4 [atLeast "%en" 1] = some (decide (0 < k)) := by
    simp [met?, atLeast, h4.count]
    omega
  refine .given_jump hmet (fun hk => hnext b4 (of_decide_eq_true hk) h4) fun hk => ?_
  have hk : k = 0 := Nat.eq_zero_of_not_pos (of_decide_eq_false hk)
  exact (Completes.nil (hlast b4 hk (hk ▸ h4))).mono

/-- The steps that are left give the digits of a quotient, and what remains. -/
theorem calculates_steps (hd : 0 < d ∧ d < 2 ^ 64) (hjk : j + k = 63) (hr : 0 ≤ r ∧ r < d)
    (he : 0 ≤ e ∧ e < 2 ^ 64) (h : Divides d q r e (k + 1) b) :
    Calculates p (divisionRegisters.map Reg.score) (inNamespace ns "rt/i64/divu_step") b (31 * (k + 1))
      (fun b' => HoldsWide b' "%q" (q * 2 ^ (k + 1) + (r * 2 ^ (k + 1) + e / 2 ^ j) / d) ∧
        HoldsWide b' "%rem" ((r * 2 ^ (k + 1) + e / 2 ^ j) % d)) := by
  induction k generalizing b q r e j with
  | zero =>
    obtain rfl : j = 63 := hjk
    refine calculates_step hp (by decide) hd hr he h rfl rfl rfl (fun b' _ h' => ?_) nofun
    have hdouble : ∀ n : ℤ, n * 2 ^ (0 + 1) = 2 * n := fun n => by omega
    obtain ⟨hdiv, hmod⟩ : (2 * r + e / 2 ^ 63) / d = (if d ≤ 2 * r + e / 2 ^ 63 then 1 else 0) ∧ _ % d = _ :=
      (Int.ediv_emod_unique hd.1).mpr ⟨Int.sub_add_cancel .., by split <;> omega, by split <;> omega⟩
    rw [hdouble, hdouble, hdiv, hmod]
    exact ⟨h'.quotient, h'.remainder⟩
  | succ k ih =>
    refine calculates_step hp (by omega) hd hr he h rfl rfl rfl nofun fun b' _ h' => ?_
    have hnext := ih (j := j + 1) (by omega) ?_ ?_ h'
    · have hbits := next_bit e hjk
      generalize (if d ≤ 2 * r + e / 2 ^ 63 then (1 : ℤ) else 0) = t at *
      generalize 2 * e - e / 2 ^ 63 * 2 ^ 64 = e' at *
      have hn : r * 2 ^ (k + 1 + 1) + e / 2 ^ j = (2 * r + e / 2 ^ 63 - d * t) * 2 ^ (k + 1) + e' / 2 ^ (j + 1) + d * (t * 2 ^ (k + 1)) := by
        rw [hbits]
        ring
      rw [hn, Int.add_mul_ediv_left _ _ hd.1.ne', Int.add_mul_emod_self_left]
      have hq : ∀ n, q * 2 ^ (k + 1 + 1) + (n + t * 2 ^ (k + 1)) = (2 * q + t) * 2 ^ (k + 1) + n := fun n => by ring
      rw [hq]
      exact hnext
    · split <;> omega
    · omega

theorem calculates_unsigned {x y : ℤ} (hb : b.Live) (hc : b.reg (const minInt) = some minInt) (hx : HoldsWide b "%x" x) (hy : HoldsWide b "%y" y)
    (hx' : 0 ≤ x ∧ x < 2 ^ 64) (hy' : 0 < y ∧ y < 2 ^ 64) :
    Calculates p (divisionRegisters.map Reg.score) (inNamespace ns "rt/i64/divu") b 1996
      (fun b' => HoldsWide b' "%q" (x / y) ∧ HoldsWide b' "%rem" (x % y)) := by
  refine .of_script (hp _ (.head _)) (by simp [Emit.call]) ?_
  refine .mono (k := 1985 + 11) (.after 11 (R := Divides y 0 0 x 64) ?_ ?_ ?_)
  · simp only [HoldsWide] at hx hy
    simp [copy_eq, Emit.set, Reg.name, hb, hc, hx, hy, divides_iff, HoldsWide, ScoreOp.outcome?]
    simp only [wrap32_eq, minInt]
    omega
  · show targets (List.take 11 ((wideDivisionRoutines "").head (by simp [wideDivisionRoutines])).2.steps) ⊆ _
    decide +kernel
  · intro b' h'
    have hsteps := calculates_steps hp hy' rfl ⟨le_refl 0, hy'.1⟩ hx' h'
    simp only [Int.zero_mul, Int.zero_add, pow_zero, Int.ediv_one] at hsteps
    exact .call (List.Subset.refl _) hsteps fun b1 _ h1 => .nil h1

/-- A number is negated. -/
theorem calculates_negate {r : Reg} (hmem : (path, negatePair r) ∈ wideDivisionRoutines ns)
    (hnames : r.name ≠ r.high.name ∧ r.name ≠ "%c-1" ∧ r.high.name ≠ "%c-1") (hb : b.Live)
    (hc : b.reg (const (-1)) = some (-1)) (hn : HoldsWide b r n) :
    Calculates p [r.score, r.high.score] (inNamespace ns path) b 3 (fun b' => HoldsWide b' r (-n)) := by
  have hadd := add_eq r.high (n := -1) (by decide)
  simp only [HoldsWide] at hn
  refine .of_script (hp _ hmem) (by simp [negatePair]) (.whole ?_ ?_ ?_)
  · simp [negatePair, hadd, hb, hc, hn, HoldsWide, ScoreOp.outcome?, isNot, met?, contains_exactly,
      hnames, hnames.1.symm]
    simp only [wrap32_eq]
    split_ifs <;> simp <;> omega
  · simp [negatePair, hadd, targets, target]
  · simp [negatePair, hadd]

end Routines

/-! ### Signed division -/

/-- The registers a signed division writes. -/
def signedRegisters : List Reg :=
  "%x" :: .high "%x" :: "%y" :: .high "%y" :: "%esx" :: "%esy" :: "%est" :: divisionRegisters

/-- The signs of the operands are in registers. -/
@[mk_iff] structure Signs (x y : ℤ) (b : Scoreboard) : Prop where
  live : b.Live
  least : b.reg (const minInt) = some minInt
  minus : b.reg (const (-1)) = some (-1)
  dividend : b.reg "%esx" = some (if x < 0 then 1 else 0)
  divisor : b.reg "%esy" = some (if y < 0 then 1 else 0)

theorem Signs.keeps {T : List Score} {x y : ℤ} (h : Signs x y b) (hk : b.Keeps T b')
    (hT : ∀ r ∈ [const minInt, const (-1), "%esx", "%esy"], r.score ∉ T) : Signs x y b' := by
  obtain ⟨hb, hleast, hminus, hx, hy⟩ := h
  simp only [forall_mem_cons] at hT
  exact ⟨hk.live hb, (hk.reg hT.1).trans hleast, (hk.reg hT.2.1).trans hminus,
    (hk.reg hT.2.2.1).trans hx, (hk.reg hT.2.2.2.1).trans hy⟩

theorem natAbs_eq (x : ℤ) : (x.natAbs : ℤ) = if x < 0 then -x else x := by
  split <;> omega

theorem tdiv_eq (x y : ℤ) : x.tdiv y = if (x < 0) = (y < 0) then (x.natAbs / y.natAbs : ℤ) else -(x.natAbs / y.natAbs) := by
  rw [← Int.tdiv_eq_ediv_of_nonneg (Int.natCast_nonneg _), natAbs_eq, natAbs_eq]
  by_cases hx : x < 0 <;> by_cases hy : y < 0 <;> simp [hx, hy]

theorem tmod_eq (x y : ℤ) : x.tmod y = if x < 0 then -(x.natAbs % y.natAbs : ℤ) else x.natAbs % y.natAbs := by
  rw [← Int.tmod_eq_emod_of_nonneg (Int.natCast_nonneg _), natAbs_eq, natAbs_eq]
  by_cases hx : x < 0 <;> by_cases hy : y < 0 <;> simp [hx, hy]

theorem calculates_signed (hp : ∀ r ∈ wideDivisionRoutines ns, p.Has ns r.1 r.2) {x y : ℤ}
    (hb : b.Live) (hc : b.reg (const minInt) = some minInt) (hc' : b.reg (const (-1)) = some (-1))
    (hx : HoldsWide b "%x" x) (hy : HoldsWide b "%y" y) (hx' : -2 ^ 63 ≤ x ∧ x < 2 ^ 63) (hy' : -2 ^ 63 ≤ y ∧ y < 2 ^ 63) (h0 : y ≠ 0) :
    Calculates p (signedRegisters.map Reg.score) (inNamespace ns "rt/i64/divs") b 2017
      (fun b' => HoldsWide b' "%q" (x.tdiv y) ∧ HoldsWide b' "%rem" (x.tmod y)) := by
  refine .of_script (hp _ (mem_of_getElem? (i := 7) rfl)) (by simp [Emit.call, test]) ?_
  refine .mono (k := 2015 + 2) (.after 2 (R := fun b' => Signs x y b' ∧ HoldsWide b' "%x" x ∧ HoldsWide b' "%y" y) ?_ ?_ ?_)
  · simp only [HoldsWide] at hx hy
    simp [test, isNegative, atMost, met?, Reg.name, hb, hc, hc', hx, hy, signs_iff, HoldsWide]
    simp only [wrap32_eq]
    split_ifs <;> omega
  · show targets (List.take 2 ((wideDivisionRoutines "").getLast (by simp [wideDivisionRoutines])).2.steps) ⊆ _
    decide +kernel
  rintro b1 ⟨hs1, hx1, hy1⟩
  have hmet : met? b1 [is "%esx" 1] = some (decide (x < 0)) := by simp [met?, is, hs1.dividend, contains_exactly]
  refine .given_call (l := 3) [Reg.score "%x", Reg.score (.high "%x")] (fun b' => HoldsWide b' "%x" x.natAbs) hmet (by decide)
    (fun hneg => ?_) (fun hneg => ?_) fun b2 hkeeps2 hx2 => ?_
  · rw [Int.ofNat_natAbs_of_nonpos (of_decide_eq_true hneg).le]
    exact calculates_negate hp (mem_of_getElem? (i := 3) rfl) (by decide) hs1.live hs1.minus hx1
  · rw [Int.natAbs_of_nonneg (not_lt.mp (of_decide_eq_false hneg))]
    exact hx1
  have hs2 := hs1.keeps hkeeps2 (by decide)
  have hy2 := hy1.keeps hkeeps2 (by decide)
  have hmet : met? b2 [is "%esy" 1] = some (decide (y < 0)) := by simp [met?, is, hs2.divisor, contains_exactly]
  refine .given_call (l := 3) [Reg.score "%y", Reg.score (.high "%y")] (fun b' => HoldsWide b' "%y" y.natAbs) hmet (by decide)
    (fun hneg => ?_) (fun hneg => ?_) fun b3 hkeeps3 hy3 => ?_
  · rw [Int.ofNat_natAbs_of_nonpos (of_decide_eq_true hneg).le]
    exact calculates_negate hp (mem_of_getElem? (i := 4) rfl) (by decide) hs2.live hs2.minus hy2
  · rw [Int.natAbs_of_nonneg (not_lt.mp (of_decide_eq_false hneg))]
    exact hy2
  have hs3 := hs2.keeps hkeeps3 (by decide)
  have hx3 := hx2.keeps hkeeps3 (by decide)
  refine .call (by decide) (calculates_unsigned hp hs3.live hs3.least hx3 hy3 (by omega) (by omega))
    fun b4 hkeeps4 hboth => ?_
  obtain ⟨hq4, hr4⟩ := hboth
  have hs4 := hs3.keeps hkeeps4 (by decide)
  show Completes p _ [_, .command _ (.ok (.operate (Reg.score "%est") .add (Reg.score "%esy"))), _, _] b4 _ _
  refine .after 2 (R := fun b' => Signs x y b' ∧ HoldsWide b' "%q" (x.natAbs / y.natAbs) ∧ HoldsWide b' "%rem" (x.natAbs % y.natAbs) ∧
    b'.reg "%est" = some ((if x < 0 then 1 else 0) + if y < 0 then 1 else 0)) ?_ (by show targets [_, _] ⊆ _; decide) ?_
  · simp only [HoldsWide, signs_iff] at hq4 hr4 hs4
    simp [hs4, hq4, hr4, Reg.name, signs_iff, HoldsWide, ScoreOp.outcome?]
    split_ifs <;> rfl
  rintro b5 ⟨hs5, hq5, hr5, hest⟩
  have hmet : met? b5 [is "%est" 1] = some (decide ((x < 0) ≠ (y < 0))) := by
    by_cases hx : x < 0 <;> by_cases hy : y < 0 <;> simp [met?, is, hest, contains_exactly, hx, hy]
  refine .given_call (l := 3) [Reg.score "%q", Reg.score (.high "%q")] (fun b' => HoldsWide b' "%q" (x.tdiv y)) hmet (by decide)
    (fun hneg => ?_) (fun hneg => ?_) fun b6 hkeeps6 hq6 => ?_
  · rw [tdiv_eq, if_neg (of_decide_eq_true hneg)]
    exact calculates_negate hp (mem_of_getElem? (i := 5) rfl) (by decide) hs5.live hs5.minus hq5
  · rw [tdiv_eq, if_pos (not_not.mp (of_decide_eq_false hneg))]
    exact hq5
  have hs6 := hs5.keeps hkeeps6 (by decide)
  have hr6 := hr5.keeps hkeeps6 (by decide)
  have hmet : met? b6 [is "%esx" 1] = some (decide (x < 0)) := by simp [met?, is, hs6.dividend, contains_exactly]
  refine .given_call (l := 3) [Reg.score "%rem", Reg.score (.high "%rem")] (fun b' => HoldsWide b' "%rem" (x.tmod y)) hmet (by decide)
    (fun hneg => ?_) (fun hneg => ?_) fun b7 hkeeps7 hr7 => .nil ⟨hq6.keeps hkeeps7 (by decide), hr7⟩
  · rw [tmod_eq, if_pos (of_decide_eq_true hneg)]
    exact calculates_negate hp (mem_of_getElem? (i := 6) rfl) (by decide) hs6.live hs6.minus hr6
  · rw [tmod_eq, if_neg (of_decide_eq_false hneg)]
    exact hr6

end ScoreWasm.Library
