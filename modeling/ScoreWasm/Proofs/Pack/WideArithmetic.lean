import ScoreWasm.Proofs.Library.Division
import ScoreWasm.Proofs.Pack.MemoryRefinement

/-!
# Arithmetic on 64 bits in compiled programs

The routines of a compiled program that multiply and divide numbers of 64 bits, from any world whose registers hold
the operands and the constants.
-/

namespace ScoreWasm.Pack

open Emit Word Machine Library Wasm

section Programs

variable {m : Module} {o : Options} {registry : Host.Registry} {pk : Pack} (hc : compile m o registry = .ok pk)
  {p : Program} (hfunctions : p.functions = pk.program.functions) {w : World} (hlive : w.scores.Live)

include hc hfunctions

theorem has_wide : (∀ r ∈ multiplyRoutines pk.ns, p.Has pk.ns r.1 r.2) ∧ ∀ r ∈ wideDivisionRoutines pk.ns, p.Has pk.ns r.1 r.2 := by
  obtain ⟨tables, hlibrary⟩ := has_library hc
  unfold Program.Has at *
  rw [hfunctions]
  refine ⟨fun r hr => hlibrary r ?_, fun r hr => hlibrary r ?_⟩ <;> simp [routines, hr]

include hlive

/-- **Multiplication wraps.**  One routine gives the high word of the product of two words, the other the product of
two numbers of 64 bits; both keep the operands. -/
theorem multiplication_wraps (hmax : 50 ≤ p.maxCommands) (hhalf : w.scores.reg (const 65536) = some 65536) {x y : ℤ}
    (hx : HoldsWide w.scores "%x" x) (hy : HoldsWide w.scores "%y" y) :
    (∃ v w', runFunction p (inNamespace pk.ns "rt/i64/mulhi_u") none w = .ok v w'
      ∧ w'.scores.reg "%uh" = some (wrap32 (x % 2 ^ 32 * (y % 2 ^ 32) / 2 ^ 32))
      ∧ HoldsWide w'.scores "%x" x ∧ HoldsWide w'.scores "%y" y ∧ Differs (multiplyRegisters.map Reg.score) w w')
    ∧ ∃ v w', runFunction p (inNamespace pk.ns "rt/i64/mul") none w = .ok v w' ∧ HoldsWide w'.scores "%q" (x * y)
      ∧ HoldsWide w'.scores "%x" x ∧ HoldsWide w'.scores "%y" y ∧ Differs (multiplyRegisters.map Reg.score) w w' := by
  have hp := (has_wide hc hfunctions).1
  constructor
  · obtain ⟨v, w', hrun, hhigh, hdiffers⟩ := (calculates_highProduct hp hlive hhalf hx.1 hy.1).run (by omega)
    rw [wrap32_emod, wrap32_emod] at hhigh
    exact ⟨v, w', hrun, hhigh, hx.keeps hdiffers.scores (by decide), hy.keeps hdiffers.scores (by decide), hdiffers⟩
  · obtain ⟨v, w', hrun, hproduct, hdiffers⟩ := (calculates_multiply hp hlive hhalf hx hy).run (by omega)
    exact ⟨v, w', hrun, hproduct, hx.keeps hdiffers.scores (by decide), hy.keeps hdiffers.scores (by decide), hdiffers⟩

/-- **Division truncates.**  Two numbers of 64 bits, read without or with a sign, are divided, and what is left has the
sign of the dividend; nothing but the registers of division changes. -/
theorem division_truncates (hmax : 2017 ≤ p.maxCommands) (hleast : w.scores.reg (const minInt) = some minInt)
    (hminus : w.scores.reg (const (-1)) = some (-1)) {x y : BitVec 64} (hx : HoldsWide w.scores "%x" x.toInt)
    (hy : HoldsWide w.scores "%y" y.toInt) (h0 : y ≠ 0) :
    (∃ v w', runFunction p (inNamespace pk.ns "rt/i64/divu") none w = .ok v w'
      ∧ HoldsWide w'.scores "%q" (x.toNat / y.toNat) ∧ HoldsWide w'.scores "%rem" (x.toNat % y.toNat)
      ∧ Differs (divisionRegisters.map Reg.score) w w')
    ∧ ∃ v w', runFunction p (inNamespace pk.ns "rt/i64/divs") none w = .ok v w'
      ∧ HoldsWide w'.scores "%q" (x.toInt.tdiv y.toInt) ∧ HoldsWide w'.scores "%rem" (x.toInt.tmod y.toInt)
      ∧ Differs (signedRegisters.map Reg.score) w w' := by
  have hp := (has_wide hc hfunctions).2
  have hy0 : y.toNat ≠ 0 := fun h => h0 (BitVec.eq_of_toNat_eq h)
  have hxi := BitVec.toInt_eq_toNat_cond x
  have hyi := BitVec.toInt_eq_toNat_cond y
  constructor
  · obtain ⟨v, w', hrun, ⟨hq, hr⟩, hdiffers⟩ := (calculates_unsigned hp hlive hleast (hx.of_emod (m := x.toNat) (by omega))
      (hy.of_emod (m := y.toNat) (by omega)) (by omega) (by omega)).run (by omega)
    exact ⟨v, w', hrun, hq, hr, hdiffers⟩
  · obtain ⟨v, w', hrun, ⟨hq, hr⟩, hdiffers⟩ :=
      (calculates_signed hp hlive hleast hminus hx hy (by omega) (by omega) (by omega)).run (by omega)
    exact ⟨v, w', hrun, hq, hr, hdiffers⟩

end Programs

/-- The constants that multiplication and division use, and two operands. -/
def operands (x y : ℤ) : Scoreboard :=
  [(const 65536, 65536), (const minInt, minInt), (const (-1), -1), ("%x", x), (.high "%x", x / 2 ^ 32), ("%y", y),
    (.high "%y", y / 2 ^ 32)].foldl (fun b a => b.put a.1 a.2) ⟨[objective], ∅⟩

theorem live_operands (x y : ℤ) : (operands x y).Live := rfl

theorem holds_operands (x y : ℤ) : HoldsWide (operands x y) "%x" x ∧ HoldsWide (operands x y) "%y" y := by
  simp [operands, Library.HoldsWide, Reg.name]

theorem reg_operands (x y : ℤ) : (operands x y).reg (const 65536) = some 65536
    ∧ (operands x y).reg (const minInt) = some minInt ∧ (operands x y).reg (const (-1)) = some (-1) := by
  simp only [operands, List.foldl_cons, List.foldl_nil, Scoreboard.reg_put, Reg.name, name_half, name_least, name_minus]
  exact ⟨rfl, rfl, rfl⟩

theorem multiplication_wraps_ones :
    ∃ pk v w', compile twoPages .default [] = .ok pk
      ∧ runFunction { pk.program with maxCommands := 50 } (inNamespace pk.ns "rt/i64/mul") none
          { World.fresh with scores := operands (-1) (-1) } = .ok v w'
      ∧ HoldsWide w'.scores "%q" 1 := by
  obtain ⟨pk, hc, -⟩ := compile_twoPages
  obtain ⟨-, v, w', hrun, hq, -⟩ := multiplication_wraps hc (p := { pk.program with maxCommands := 50 }) rfl
    (w := { World.fresh with scores := operands (-1) (-1) }) (live_operands _ _) le_rfl (reg_operands _ _).1
    (holds_operands _ _).1 (holds_operands _ _).2
  exact ⟨pk, v, w', hc, hrun, hq⟩

theorem division_truncates_overflow :
    ∃ pk v w', compile twoPages .default [] = .ok pk
      ∧ runFunction { pk.program with maxCommands := 2017 } (inNamespace pk.ns "rt/i64/divs") none
          { World.fresh with scores := operands (-2 ^ 63) (-1) } = .ok v w'
      ∧ HoldsWide w'.scores "%q" (2 ^ 63) ∧ HoldsWide w'.scores "%rem" 0 := by
  obtain ⟨pk, hc, -⟩ := compile_twoPages
  obtain ⟨hhalf, hleast, hminus⟩ := reg_operands (-2 ^ 63) (-1)
  obtain ⟨-, v, w', hrun, hq, hr, -⟩ := division_truncates hc (p := { pk.program with maxCommands := 2017 }) rfl
    (w := { World.fresh with scores := operands (-2 ^ 63) (-1) }) (live_operands _ _) le_rfl hleast hminus
    (x := BitVec.intMin 64) (y := -1) (holds_operands _ _).1 (holds_operands _ _).2 (by decide)
  exact ⟨pk, v, w', hc, hrun, hq, hr⟩

end ScoreWasm.Pack
