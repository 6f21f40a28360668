import ScoreWasm.Proofs.SoftFloat.Operands

/-!
# Integers as floating-point numbers

An integer is packed with its magnitude as the significand.  A magnitude of 64 bits is one bit too long for that:
it is halved first, and the bit that is lost stays visible in the last one.
-/

namespace ScoreWasm.SoftFloat

open Wasm Code BitVec
open Ieee (jam)

/-- The integer that a value of an integer type stands for. -/
def integerOf (signed : Bool) : Value → ℤ
  | .i32 x => if signed then x.toInt else x.toNat
  | .i64 x => if signed then x.toInt else x.toNat
  | _ => 0

/-- The number of a width that is nearest to an integer, ties to even. -/
def nearestTo (w : Width) (i : ℤ) : Value :=
  floatOf w (.ofNat 64 ((format w).encode (.finite (decide (i < 0)) i.natAbs 0)))

variable {σ : Type} {env : Env σ} {index : Routine → Nat} {w : Width} {n : ℕ}

/-- Halving a magnitude of 64 bits does not change what it is rounded to. -/
theorem magnitude_jam (w : Width) (hlow : 2 ^ 63 ≤ n) (hhigh : n < 2 ^ 64) :
    (format w).magnitude (jam n 2 * 2 ^ (1 : ℤ)) = (format w).magnitude (n * 2 ^ (0 : ℤ)) := by
  have hjam : 2 ^ 62 ≤ jam n 2 ∧ jam n 2 < 2 ^ 63 := by
    unfold jam
    rw [Ieee.or_one]
    split <;> omega
  have hfrac : (format w).frac ≤ 60 := by cases w <;> decide
  have hround := Ieee.roundHalfEven_jam n two_pos (60 - (format w).frac)
  rw [← Nat.pow_succ'] at hround
  rw [Ieee.magnitude_normal (e := (format w).bias + 62) _ hjam.1 hjam.2 (by omega) (by omega),
    Ieee.magnitude_normal (e := (format w).bias + 62) _ hlow hhigh (by omega) (by omega)]
  congr 2
  have h1 : 61 + 1 - (format w).frac + (-(((format w).bias : ℤ) + 62)).toNat = 60 - (format w).frac + 2 := by omega
  have h2 : 62 + 1 - (format w).frac + (-(((format w).bias : ℤ) + 62)).toNat = 60 - (format w).frac + 2 + 1 := by omega
  rw [h1, h2, hround]

theorem does_fromInt (hr : Rounds env index w) {neg : Bool} (hn : n < 2 ^ 64) (h0 : n = 0 → neg = false) {v : Value} :
    Does env index true (fromIntCode w) [] [.i64 (.ofNat 64 neg.toNat), .i64 (.ofNat 64 n), v]
      (.out (.ok [.i64 (.ofNat 64 ((format w).encode (.finite neg n 0)))])) := by
  have hbias : (format w).bias < 2 ^ 11 := by cases w <;> decide
  unfold fromIntCode
  simp only [Code.append_assoc]
  refine .guard (n = 0) hr.rules rfl ?_ rfl (fun h => .ret (.eval hr.rules rfl) ?_) fun h => ?_
  · simpa using ofNat_inj hn (by decide : 0 < 2 ^ 64)
  · rw [h0 h, h]
    simp [Ieee.Format.encode, Ieee.Format.magnitude, Ieee.Format.signed]
    rfl
  refine .step hr.rules rfl (.fork (2 ^ 63 ≤ n) hr.rules rfl ?_ rfl (fun _ => .eval hr.rules rfl) (fun hlow => ?_) fun hlow => ?_)
  · show (if (BitVec.ofNat 64 n).slt 0#64 = true then 1 else 0 : BitVec 32) ≠ 0 ↔ _
    rw [flag_ne_zero, slt_zero_eq_msb, msb_eq_decide, decide_eq_true_iff, toNat_ofNat, Nat.mod_eq_of_lt hn]
  · have hjam : BitVec.ofNat 64 n >>> ((literal 1).toNat % 64) ||| BitVec.ofNat 64 n &&& literal 1 = .ofNat 64 (jam n 2) := by
      have hodd : (n % 2 != 0).toNat = n % 2 := by rcases Nat.mod_two_eq_zero_or_one n with h | h <;> rw [h] <;> rfl
      have hlast := and_literal (.ofNat 64 n) 1
      rw [toNat_ofNat, Nat.mod_eq_of_lt hn] at hlast
      rw [shr_literal _ (by decide), toNat_ofNat, Nat.mod_eq_of_lt hn, jam_eq, hodd, ofNat_or]
      exact congrArg _ hlast
    have hexp : literal ((format w).bias + 61) + literal 1 = .ofInt 64 ((format w).bias + 62) := by
      rw [literal_eq, literal_eq, ofNat_add_ofNat, ← ofInt_natCast]
      rfl
    have hpack := hr.pack neg (e := (format w).bias + 62) (n := jam n 2) (by rw [abs_lt]; omega)
      (jam_lt (by omega) (by decide))
    rw [add_sub_cancel_left, show (62 - 61 : ℤ) = 1 by rfl, magnitude_jam w hlow hn, ← hjam, ← hexp] at hpack
    exact .finish (.call (.eval hr.rules rfl) hpack) rfl
  · have hexp : literal ((format w).bias + 61) = .ofInt 64 ((format w).bias + 61) := by
      rw [literal_eq, ← ofInt_natCast]
      rfl
    have hpack := hr.pack neg (e := (format w).bias + 61) (n := n) (by rw [abs_lt]; omega) (by omega)
    rw [add_sub_cancel_left, sub_self, ← hexp] at hpack
    exact .finish (.call (.eval hr.rules rfl) hpack) rfl

theorem does_select {c : BitVec 32} {x y : Value} {stack locals : List Value} : Does env index false (instr (.select none))
    (.i32 c :: y :: x :: stack) locals (.on ((if c = 0 then y else x) :: stack) locals) := by
  rintro a rest hcode hstack rfl - -
  have hselect : ∀ s, env.plain (.select none) (a.stack.take 3).reverse a.locals s =
      .ok ([if c = 0 then y else x], a.locals, s) := fun s => by
    rw [hstack]
    simp only [← Does.bits_i32_eq_zero]
    rfl
  have hleads := Env.leads_isLocal rfl hcode hselect
  rw [hstack] at hleads
  exact hleads

/-- The sign and the magnitude of a word, as the routine finds them. -/
theorem sign_magnitude (v : BitVec 64) : v >>> ((literal 63).toNat % 64) = .ofNat 64 (decide (v.toInt < 0)).toNat ∧
    (if (BitVec.ofNat 64 (decide (v.toInt < 0)).toNat).setWidth 32 = 0 then .i64 v else .i64 (literal 0 - v)) =
      Value.i64 (.ofNat 64 v.toInt.natAbs) := by
  have hv := toInt_eq_toNat_cond v
  have hsign : (decide (v.toInt < 0)).toNat = v.toNat / 2 ^ 63 := by
    by_cases h : v.toInt < 0
    · rw [decide_eq_true h]
      show 1 = _
      omega
    · rw [decide_eq_false h]
      show 0 = _
      omega
  rw [shr_literal v (by decide), hsign]
  refine ⟨rfl, ?_⟩
  rw [literal_eq]
  by_cases h : v.toNat < 2 ^ 63
  · rw [Nat.div_eq_of_lt h, if_pos (by decide)]
    exact congrArg Value.i64 (by bv_omega)
  · rw [show v.toNat / 2 ^ 63 = 1 by omega, if_neg (by decide)]
    exact congrArg Value.i64 (by bv_omega)

theorem does_convert (hrules : env.Obeys integerRules) (hcall : ∀ {neg : Bool} {n : ℕ}, n < 2 ^ 64 → (n = 0 → neg = false) →
      Returns env index (.fromInt w) [.i64 (.ofNat 64 neg.toNat), .i64 (.ofNat 64 n)]
        (.i64 (.ofNat 64 ((format w).encode (.finite neg n 0))))) (signed : Bool) (v : BitVec 64) :
    Does env index true (convertCode w signed) [] (.i64 v :: (List.replicate (if signed then 1 else 0) .i64).map Value.zero)
      (.out (.ok [nearestTo w (integerOf signed (.i64 v))])) := by
  cases signed with
  | false =>
    have hreturns := @hcall false _ v.isLt fun _ => rfl
    rw [← word_eq] at hreturns
    refine .finish (does_fromBits hrules w (.call (.eval hrules rfl) hreturns)) ?_
    have hpos : decide ((v.toNat : ℤ) < 0) = false := decide_eq_false (by omega)
    rw [nearestTo, integerOf, if_neg Bool.false_ne_true, hpos, Int.natAbs_natCast]
  | true =>
    obtain ⟨hsign, hmagnitude⟩ := sign_magnitude v
    have hreturns := @hcall (decide (v.toInt < 0)) v.toInt.natAbs
      (by have := toInt_eq_toNat_cond v; have := v.isLt; omega) (by simp; omega)
    rw [← hmagnitude, ← hsign] at hreturns
    exact .step hrules rfl (.finish (does_fromBits hrules w (.call (.append (.eval hrules rfl)
      (.append (.eval hrules rfl) does_select)) hreturns)) rfl)

/-- The word that another one is extended to. -/
def extended (signed : Bool) (x : BitVec 32) : BitVec 64 := if signed then x.signExtend 64 else x.setWidth 64

theorem toInt_extended (signed : Bool) (x : BitVec 32) : (extended signed x).toInt = integerOf signed (.i32 x) := by
  cases signed with
  | false =>
    exact (toInt_setWidth x).trans (Int.bmod_eq_of_le (by omega) (by omega))
  | true => exact toInt_signExtend_of_le (by decide)

/-- **Conversion rounds the integer once.**  What replaces the operator computes the number of the format that is
nearest to the integer, ties to even. -/
theorem conversion_rounds_once {m : Module} (henv : env.module = lowered m) (hrules : env.Obeys integerRules)
    {src : Width} {signed : Bool} (hop : .convert w src signed ∈ softOpsOf m) {v : Value} (hv : v.type = src.int) :
    ∃ ops, replacement? (.convert w src signed) = some ops ∧
      Computes env (routineIndex m) ops [v] (.ok (nearestTo w (integerOf signed v))) := by
  have hwide {signed : Bool} (hr : .convert w signed ∈ routinesFor m) (x : BitVec 64) : Computes env (routineIndex m)
      [.call (.convert w signed)] [.i64 x] (.ok (nearestTo w (integerOf signed (.i64 x)))) := by
    have hfrom : .fromInt w ∈ routinesFor m := routinesFor_closed hr (by cases w <;> cases signed <;> decide)
    have hpack : .pack w ∈ routinesFor m := routinesFor_closed hfrom (by cases w <;> decide)
    have hcall {neg : Bool} {n : ℕ} (hn : n < 2 ^ 64) (h0 : n = 0 → neg = false) : Returns env (routineIndex m) (.fromInt w)
        [.i64 (.ofNat 64 neg.toNat), .i64 (.ofNat 64 n)] (.i64 (.ofNat 64 ((format w).encode (.finite neg n 0)))) :=
      Does.computes henv hfrom rfl (does_fromInt (rounds_of_lowered henv hrules hpack) hn h0)
    refine Does.computes henv hr rfl ?_
    cases signed with
    | false | true => exact does_convert hrules hcall _ x
  cases src with
  | x64 =>
    cases v with
    | i64 x => exact ⟨_, rfl, hwide (mem_routinesFor hop rfl (.head _)) x⟩
    | _ => cases hv
  | x32 =>
    cases v with
    | i32 x =>
      have hextend : Computes env (routineIndex m) [.plain (.num (.extend signed))] [.i32 x]
          (.ok (.i64 (extended signed x))) := by
        rw [← hrules (.extend signed) [.i32 x] (.ok (.i64 (extended signed x))) (by cases signed <;> rfl)]
        exact computes_num _ rfl
      have hconvert := hwide (mem_routinesFor hop rfl (.tail _ (.head _))) (extended signed x)
      rw [integerOf, if_pos rfl, toInt_extended] at hconvert
      exact ⟨_, rfl, @computes_both _ _ _ _ _ [] _ _ _ hextend hconvert⟩
    | _ => cases hv

/-- Just above halfway between two singles; the bit that tells is the one that halving loses. -/
theorem conversion_rounds_once_sticky : ∃ ops, replacement? (.convert .x32 .x64 false) = some ops ∧ Computes
    (integerEnv (lowered (operatorModule [.convert .x32 .x64 false]))) (routineIndex (operatorModule [.convert .x32 .x64 false]))
    ops [.i64 0x8000008000000001] (.ok (.f32 0x5f000001)) := by
  have hvalue : nearestTo .x32 (integerOf false (.i64 0x8000008000000001)) = .f32 0x5f000001 := by
    have hencode := Ieee.roundDyadic_eq Ieee.binary32 false 0x8000008000000001 0
    exact congrArg _ (congrArg _ hencode.symm)
  rw [← hvalue]
  exact conversion_rounds_once (module_integerEnv _) (obeys_integerEnv _) (by decide) rfl

end ScoreWasm.SoftFloat
