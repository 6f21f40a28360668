import ScoreWasm.Proofs.SoftFloat.Conversion

/-!
# Truncation to integers

The fraction of a number is dropped, and what is left has to fit the type of the result.  The routine finds out
in two places: the exponent alone tells that a number is far too large, and the magnitude tells the rest.
-/

namespace ScoreWasm.SoftFloat

open Wasm Code BitVec
open Ieee hiding Value

/-- The integers that a type of results holds. -/
def InRange (dst : Width) (signed : Bool) (i : ℤ) : Prop :=
  if signed then -2 ^ dst.pick 31 63 ≤ i ∧ i < 2 ^ dst.pick 31 63 else 0 ≤ i ∧ i < 2 ^ dst.pick 32 64

instance (dst : Width) (signed : Bool) (i : ℤ) : Decidable (InRange dst signed i) := by
  unfold InRange
  infer_instance

/-- A whole number as an integer, unless it is out of range. -/
def narrowed (dst : Width) (signed : Bool) (i : ℤ) : Except Halt Value :=
  if InRange dst signed i then .ok (.ofInt dst.int i) else .error (.trap .integerOverflow)

/-- The integer that is left of a value without its fraction. -/
def truncated (dst : Width) (signed : Bool) : Ieee.Value → Except Halt Value
  | .nan _ _ => .error (.trap .invalidConversion)
  | .inf _ => .error (.trap .integerOverflow)
  | .finite neg m e => narrowed dst signed ((if neg then -1 else 1) * ⌊(m : ℚ) * 2 ^ e⌋₊)

variable {σ : Type} {env : Env σ} {index : Routine → Nat}

/-! ### The magnitude -/

section Whole

variable (x : BitVec 64)

/-- The magnitude of a number without its fraction. -/
def wholeOf : ℕ := ⌊(sigOf .x64 x : ℚ) * 2 ^ (format .x64).lastOf x.toNat⌋₊

variable {x}

theorem wholeOf_small (h : expOf .x64 x < 1023) : wholeOf x = 0 := by
  have hlast : (format .x64).lastOf x.toNat ≤ -53 := by
    show (-1074 + (expOf .x64 x - 1 : ℕ) : ℤ) ≤ _
    omega
  have hsig : (sigOf .x64 x : ℚ) < 2 ^ 53 := mod_cast sigOf_lt .x64 x
  refine Nat.floor_eq_zero.mpr ?_
  calc (sigOf .x64 x : ℚ) * 2 ^ (format .x64).lastOf x.toNat < 2 ^ 53 * 2 ^ (format .x64).lastOf x.toNat := by gcongr
    _ ≤ 2 ^ 53 * 2 ^ (-53 : ℤ) := by gcongr; norm_num
    _ = 1 := by norm_num

section Normal

variable {p : ℕ} (h : expOf .x64 x = 1023 + p)

include h

theorem sigOf_normal : sigOf .x64 x = fracOf .x64 x + 2 ^ 52 := if_neg (show ¬expOf .x64 x = 0 by omega)

theorem lastOf_normal : (format .x64).lastOf x.toNat = p - 52 := by
  show (-1074 + (expOf .x64 x - 1 : ℕ) : ℤ) = _
  omega

theorem wholeOf_normal : wholeOf x =
    if 52 ≤ p then (fracOf .x64 x + 2 ^ 52) * 2 ^ (p - 52) else (fracOf .x64 x + 2 ^ 52) / 2 ^ (52 - p) := by
  rw [wholeOf, lastOf_normal h, sigOf_normal h]
  split
  next hp =>
    exact_mod_cast Nat.floor_natCast _
  next hp =>
    have hexp : (p : ℤ) - 52 = -(52 - p : ℕ) := by omega
    rw [hexp, zpow_neg, zpow_natCast, ← div_eq_mul_inv]
    norm_cast

theorem wholeOf_bounds : 2 ^ p ≤ wholeOf x ∧ wholeOf x < 2 ^ (p + 1) := by
  have hleast : (2 : ℚ) ^ 52 ≤ sigOf .x64 x := by
    rw [sigOf_normal h]
    exact_mod_cast Nat.le_add_left _ _
  have hmost : (sigOf .x64 x : ℚ) < 2 ^ 53 := mod_cast sigOf_lt .x64 x
  have hpow : ∀ j : ℕ, (2 : ℚ) ^ (p + j) = 2 ^ (52 + j) * 2 ^ ((p : ℤ) - 52) := fun j => by
    rw [← zpow_natCast, ← zpow_natCast, ← zpow_add₀ two_ne_zero]
    congr 1
    push_cast
    ring
  rw [wholeOf, lastOf_normal h]
  refine ⟨Nat.le_floor ?_, (Nat.floor_lt (by positivity)).mpr ?_⟩
  · have hlow := hpow 0
    push_cast
    rw [Nat.add_zero] at hlow
    rw [hlow]
    gcongr
  · push_cast
    rw [hpow 1]
    gcongr

end Normal

end Whole

/-! ### Words -/

theorem low_ofInt (i : ℤ) : (BitVec.ofInt 64 i).setWidth 32 = .ofInt 32 i := by
  apply eq_of_toNat_eq
  simp
  omega

theorem neg_ofNat (n : ℕ) : literal 0 - .ofNat 64 n = .ofInt 64 (-n) := by
  rw [ofInt_neg, ofInt_natCast]
  exact BitVec.zero_sub _

theorem inRange_magnitude (dst : Width) (signed neg : Bool) {n : ℕ} (h0 : 0 < n) :
    InRange dst signed ((if neg then -1 else 1) * n) ↔
      if signed then if neg then n ≤ 2 ^ dst.pick 31 63 else n < 2 ^ dst.pick 31 63
      else neg = false ∧ n < 2 ^ dst.pick 32 64 := by
  cases dst <;> cases signed <;> cases neg <;> simp [InRange, Width.pick] <;> omega

section Narrowed

variable {dst : Width} {signed : Bool} {i : ℤ}

theorem narrowed_ok (h : InRange dst signed i) : (narrowed dst signed i).map ([·]) = .ok [.ofInt dst.int i] := by
  rw [narrowed, if_pos h]
  rfl

theorem narrowed_trap (h : ¬InRange dst signed i) :
    (narrowed dst signed i).map ([·]) = .error (.trap .integerOverflow) := by
  rw [narrowed, if_neg h]
  rfl

end Narrowed

/-- The word of a sign and a magnitude. -/
def signedWord (neg : Bool) (n : ℕ) : BitVec 64 := if neg then literal 0 - .ofNat 64 n else .ofNat 64 n

theorem ofInt_signed (neg : Bool) (n : ℕ) : BitVec.ofInt 64 ((if neg then -1 else 1) * n) = signedWord neg n := by
  cases neg with
  | false => simp [signedWord]
  | true => simp [signedWord, neg_ofNat]

variable {v0 v1 v2 p : Value}

section Signed

variable (hrules : env.Obeys integerRules) (n : ℕ) {neg : Bool} {s : Value}

include hrules

theorem does_positive (h : neg = false) : Does env index false (var opX.sig) [] [v0, v1, v2, .i64 (.ofNat 64 n), s, p]
    (.on [.i64 (signedWord neg n)] [v0, v1, v2, .i64 (.ofNat 64 n), s, p]) := by
  subst h
  exact .eval hrules rfl

theorem does_negative (h : ¬neg = false) : Does env index false (0 - var opX.sig) []
    [v0, v1, v2, .i64 (.ofNat 64 n), s, p] (.on [.i64 (signedWord neg n)] [v0, v1, v2, .i64 (.ofNat 64 n), s, p]) := by
  obtain rfl := Bool.eq_true_of_not_eq_false h
  exact .eval hrules rfl

end Signed

/-- The integer from the sign and a magnitude that the exponent has not refused. -/
theorem does_truncateResult (hrules : env.Obeys integerRules) (dst : Width) (signed neg : Bool) {n : ℕ} (h0 : 0 < n)
    (hn : n < 2 ^ 64) (hwide : dst = .x64 → if signed then n < 2 ^ 63 else neg = false) :
    Does env index true (truncateResult dst signed) [] [v0, v1, v2, .i64 (.ofNat 64 n), .i64 (.ofNat 64 neg.toNat), p]
      (.out ((narrowed dst signed ((if neg then -1 else 1) * n)).map ([·]))) := by
  have hrange := inRange_magnitude dst signed neg h0
  have hlow : setWidth 32 (signedWord neg n) = .ofInt 32 ((if neg then -1 else 1) * n) := by
    rw [← ofInt_signed, low_ofInt]
  have hword := congrArg Value.i64 (ofInt_signed neg n).symm
  match dst, signed with
  | .x64, false =>
    obtain rfl : neg = false := hwide rfl
    rw [narrowed_ok (hrange.mpr ⟨rfl, hn⟩)]
    exact .finish (does_positive hrules n rfl) hword
  | .x64, true =>
    have hlt : n < 2 ^ 63 := hwide rfl
    rw [narrowed_ok (hrange.mpr (by cases neg <;> [exact hlt; exact hlt.le]))]
    exact .finish (.choose _ hrules rfl (positive_iff neg) rfl rfl (does_positive hrules n) (does_negative hrules n)) hword
  | .x32, false =>
    refine .guard (neg = true ∨ 4294967296 ≤ n) hrules rfl
      (either_iff (low_flag neg) (geU_literal hn (by decide))) rfl (fun h => ?_) fun h => ?_
    · rw [narrowed_trap (hrange.not.mpr fun ⟨hneg, hlt⟩ => h.elim (hneg ▸ Bool.false_ne_true) (not_le.mpr hlt))]
      exact .trap _
    · obtain ⟨hneg, hlt⟩ := not_or.mp h
      rw [Bool.not_eq_true] at hneg
      rw [narrowed_ok (hrange.mpr ⟨hneg, not_le.mp hlt⟩)]
      exact .finish (.append (does_positive hrules n hneg) (.eval hrules rfl)) (congrArg Value.i32 hlow)
  | .x32, true =>
    by_cases hin : InRange .x32 true ((if neg then -1 else 1) * n)
    · rw [narrowed_ok hin]
      rw [hrange, if_pos rfl] at hin
      refine .finish (.append (.choose _ hrules rfl (positive_iff neg) rfl rfl
        (fun h => .append (.under _ hrules rfl (geU_literal hn (by decide)) rfl (fun hge => absurd hge ?_) fun _ => rfl)
          (does_positive hrules n h))
        (fun h => .append (.under _ hrules rfl (gtU_literal hn (by decide)) rfl (fun hgt => absurd hgt ?_) fun _ => rfl)
          (does_negative hrules n h)))
        (.eval hrules rfl)) (congrArg Value.i32 hlow)
      · rw [h] at hin
        exact not_le.mpr hin
      · rw [Bool.eq_true_of_not_eq_false h] at hin
        exact not_lt.mpr hin
    · rw [narrowed_trap hin]
      rw [hrange, if_pos rfl] at hin
      refine .stop (.choose _ hrules rfl (positive_iff neg) rfl rfl
        (fun h => .stop (.under _ hrules rfl (geU_literal hn (by decide)) rfl (fun _ => .trap _) fun hlt => absurd ?_ hin))
        (fun h => .stop (.under _ hrules rfl (gtU_literal hn (by decide)) rfl (fun _ => .trap _) fun hle => absurd ?_ hin)))
      · rw [h]
        exact not_le.mp hlt
      · rw [Bool.eq_true_of_not_eq_false h]
        exact not_lt.mp hle

/-- The bits of a significand that stand for a whole number, for an exponent of its leading bit. -/
def dropFraction : Code := choose (rel .geU (var 5) 52) (var 3 <<< (var 5 - 52)) (var 3 >>> (52 - var 5))

theorem does_dropFraction (hrules : env.Obeys integerRules) {n k : ℕ} (hn : n < 2 ^ 64) (hk : k < 64) {s : Value} :
    Does env index false dropFraction [] [v0, v1, v2, .i64 (.ofNat 64 n), s, .i64 (.ofNat 64 k)]
      (.on [.i64 (.ofNat 64 (if 52 ≤ k then n * 2 ^ (k - 52) else n / 2 ^ (52 - k)))]
        [v0, v1, v2, .i64 (.ofNat 64 n), s, .i64 (.ofNat 64 k)]) := by
  refine .choose (52 ≤ k) hrules rfl (geU_literal (by omega) (by decide)) rfl rfl (fun h => ?_) fun h => ?_
  · have hdist : (BitVec.ofNat 64 k - literal 52).toNat % 64 = k - 52 := by
      rw [literal_eq, toNat_sub]
      simp
      omega
    rw [if_pos h, ← ofNat_shl, ← hdist]
    exact .eval hrules rfl
  · have hdist : (literal 52 - BitVec.ofNat 64 k).toNat % 64 = 52 - k := by
      rw [literal_eq, toNat_sub]
      simp
      omega
    rw [if_neg h, ← ofNat_shr hn, ← hdist]
    exact .eval hrules rfl

/-- What is left to do once the exponent has not refused the number. -/
def truncateRest (dst : Width) (signed : Bool) : Code :=
  assign 3 (var 3 ||| nat (2 ^ 52)) ++ (assign 3 dropFraction ++ truncateResult dst signed)

section Rest

variable {x : BitVec 64} {k : ℕ} (hrules : env.Obeys integerRules) (hexp : expOf .x64 x = 1023 + k)

include hrules hexp

theorem does_truncateRest (dst : Width) (signed : Bool) (hk : k < 64)
    (hwide : dst = .x64 → if signed then wholeOf x < 2 ^ 63 else negOf .x64 x = false) :
    Does env index true (truncateRest dst signed) []
      [v0, v1, v2, .i64 (.ofNat 64 (fracOf .x64 x)), .i64 (.ofNat 64 (negOf .x64 x).toNat), .i64 (.ofNat 64 k)]
      (.out ((narrowed dst signed ((if negOf .x64 x then -1 else 1) * wholeOf x)).map ([·]))) := by
  obtain ⟨hleast, hmost⟩ := wholeOf_bounds hexp
  have hpow : 2 ^ (k + 1) ≤ 2 ^ 64 := Nat.pow_le_pow_right (by decide) hk
  have hfrac : fracOf .x64 x < 2 ^ 52 := fracOf_lt .x64 x
  have hdrop : Does env index false dropFraction []
      [v0, v1, v2, _, .i64 (.ofNat 64 (negOf .x64 x).toNat), .i64 (.ofNat 64 k)] _ :=
    does_dropFraction hrules (by omega : fracOf .x64 x + 2 ^ 52 < 2 ^ 64) hk
  rw [← wholeOf_normal hexp, ← or_literal hfrac] at hdrop
  exact .step hrules rfl (.append (.append hdrop (.eval hrules rfl))
    (does_truncateResult hrules dst signed _ (lt_of_lt_of_le (Nat.two_pow_pos k) hleast) (by omega) hwide))

theorem does_truncateNormal (dst : Width) (signed : Bool) (hk : k < 2 ^ 11) :
    Does env index true (truncateLimits dst signed ++ truncateRest dst signed) []
      [v0, v1, v2, .i64 (.ofNat 64 (fracOf .x64 x)), .i64 (.ofNat 64 (negOf .x64 x).toNat), .i64 (.ofNat 64 k)]
      (.out ((narrowed dst signed ((if negOf .x64 x then -1 else 1) * wholeOf x)).map ([·]))) := by
  obtain ⟨hleast, hmost⟩ := wholeOf_bounds hexp
  have hpos : 0 < wholeOf x := lt_of_lt_of_le (Nat.two_pow_pos k) hleast
  have hrange := inRange_magnitude dst signed (negOf .x64 x) hpos
  have hlarge {j : ℕ} (hj : j ≤ k) : 2 ^ j ≤ wholeOf x := le_trans (Nat.pow_le_pow_right (by decide) hj) hleast
  match dst, signed with
  | .x32, signed =>
    refine .guard (32 ≤ k) hrules rfl (geU_literal (by omega) (by decide)) rfl (fun h => ?_) fun h => ?_
    · have hbig := hlarge h
      rw [narrowed_trap]
      · exact .trap _
      · rw [hrange]
        cases signed <;> cases negOf .x64 x <;> simp [Width.pick] <;> omega
    · exact does_truncateRest hrules hexp .x32 signed (by omega) nofun
  | .x64, false =>
    refine .guard (negOf .x64 x = true ∨ 64 ≤ k) hrules rfl
      (either_iff (low_flag _) (geU_literal (by omega) (by decide))) rfl (fun h => ?_) fun h => ?_
    · rw [narrowed_trap (hrange.not.mpr fun ⟨hneg, hlt⟩ => h.elim (hneg ▸ Bool.false_ne_true)
        fun h => not_le.mpr hlt (hlarge h))]
      exact .trap _
    · obtain ⟨hneg, hlt⟩ := not_or.mp h
      exact does_truncateRest hrules hexp .x64 false (by omega) fun _ => Bool.eq_false_of_not_eq_true hneg
  | .x64, true =>
    refine .guard (63 ≤ k) hrules rfl (geU_literal (by omega) (by decide)) rfl (fun h => ?_) fun h => ?_
    · have hwhole := wholeOf_normal hexp
      refine .guard ((k = 63 ∧ fracOf .x64 x = 0) ∧ negOf .x64 x = true) hrules rfl ?_ rfl (fun hleast => ?_) fun hout => ?_
      · have htest := both_iff (eq_literal (by omega : k < 2 ^ 64) (by decide : 63 < 2 ^ 64)) (fracOf_iff .x64 x)
        rw [flag_and] at htest
        have hall := both_iff htest (flag_ne_zero (b := negOf .x64 x))
        rw [← flag_and, ← low_word (negOf .x64 x)] at hall
        exact hall
      · obtain ⟨⟨rfl, hfrac⟩, hneg⟩ := hleast
        rw [hfrac] at hwhole
        rw [narrowed_ok (hrange.mpr (by rw [hneg, hwhole]; decide)), hneg, hwhole]
        exact .ret (.eval hrules rfl) (by decide)
      · rw [narrowed_trap]
        · exact .trap _
        · have hbig := hlarge h
          rw [hrange, if_pos rfl]
          intro hfits
          obtain rfl | hk' := h.eq_or_lt
          · cases hneg : negOf .x64 x with
            | false =>
              rw [hneg] at hfits
              exact absurd hfits (not_lt.mpr hbig)
            | true =>
              refine hout ⟨⟨rfl, ?_⟩, hneg⟩
              rw [hneg, if_pos rfl, hwhole] at hfits
              have hfits : (fracOf .x64 x + 2 ^ 52) * 2 ^ 11 ≤ 2 ^ 63 := hfits
              omega
          · have hbig : 2 ^ 64 ≤ wholeOf x := hlarge hk'
            revert hfits
            cases negOf .x64 x <;> simp [Width.pick] <;> omega
    · have hlt : 2 ^ (k + 1) ≤ 2 ^ 63 := Nat.pow_le_pow_right (by decide) (by omega)
      exact does_truncateRest hrules hexp .x64 true (by omega) fun _ => lt_of_lt_of_le hmost hlt

end Rest

theorem does_truncate (hrules : env.Obeys integerRules) (dst : Width) (signed : Bool) (x : BitVec 64)
    {v1 v2 v3 v4 v5 : Value} : Does env index true (truncateCode dst signed) [] [.f64 x, v1, v2, v3, v4, v5]
      (.out ((truncated dst signed ((format .x64).decode x.toNat)).map ([·]))) := by
  unfold truncateCode
  simp only [Code.append_assoc]
  rw [← Code.append_assoc]
  refine .append (does_openOperand hrules x.isLt [v5]) ?_
  rw [Ieee.Format.decode_eq]
  refine .guard _ hrules rfl (isSpecial_iff .x64 x) rfl (fun hs => ?_) fun hs => ?_
  · rw [if_pos hs]
    refine .guard _ hrules rfl (fracOf_iff .x64 x) rfl (fun hm => ?_) fun hm => ?_
    · rw [if_pos hm]
      exact .trap _
    · rw [if_neg hm]
      exact .trap _
  rw [if_neg hs]
  have hexp := expOf_lt .x64 x
  refine .guard (expOf .x64 x < 1023) hrules rfl (ltU_literal (by omega) (by decide)) rfl (fun h => ?_) fun h => ?_
  · have hwhole : ⌊(sigOf .x64 x : ℚ) * 2 ^ (format .x64).lastOf x.toNat⌋₊ = 0 := wholeOf_small h
    have hin : InRange dst signed ((if negOf .x64 x then -1 else 1) * (0 : ℕ)) := by
      cases dst <;> cases signed <;> simp [InRange, Width.pick]
    rw [truncated, hwhole, narrowed_ok hin]
    refine .ret (.eval hrules rfl) ?_
    simp
  · obtain ⟨k, hk⟩ := Nat.exists_eq_add_of_le (not_lt.mp h)
    have hpower : BitVec.ofNat 64 (expOf .x64 x) - literal 1023 = .ofNat 64 k := by
      rw [hk, literal_eq, Nat.add_comm, ofNat_add]
      exact BitVec.add_sub_cancel _ _
    have hdoes : ∀ v0 v1 v2 : Value, Does env index true (truncateLimits dst signed ++ truncateRest dst signed) []
        [v0, v1, v2, _, _, _] _ := fun _ _ _ => does_truncateNormal hrules hk dst signed (by omega)
    rw [← hpower] at hdoes
    exact .step hrules rfl (hdoes _ _ _)

/-! ### Singles -/

theorem encode_lt (v : Ieee.Value) : binary64.encode v < 2 ^ 64 := by
  have hsigned : ∀ neg {p : ℕ}, p ≤ binary64.infinity → binary64.signed neg p < 2 ^ 64 := by
    intro neg p hp
    have hinf : binary64.infinity = 2047 * 2 ^ 52 := rfl
    cases neg <;> simp [Ieee.Format.signed, Ieee.Format.signBit, binary64] at * <;> omega
  cases v with
  | nan neg payload => exact (by decide : binary64.canonicalNaN < 2 ^ 64)
  | inf neg => exact hsigned neg (le_refl _)
  | finite neg m e =>
    refine hsigned neg ?_
    unfold Ieee.Format.magnitude
    split
    · exact Nat.zero_le _
    · exact Nat.min_le_right _ _

theorem truncated_promoted (dst : Width) (signed : Bool) (n : ℕ) :
    truncated dst signed (binary64.decode (binary64.encode (binary32.decode n))) =
      truncated dst signed (binary32.decode n) := by
  cases h : binary32.decode n with
  | nan neg payload =>
    have hnan : binary64.decode binary64.canonicalNaN = .nan false (2 ^ 51) := by decide
    rw [Ieee.Format.encode, hnan, truncated, truncated]
  | inf neg => cases neg <;> rfl
  | finite neg m e =>
    obtain ⟨m', e', hdecode, hvalue⟩ := decode_promoted h
    rw [hdecode, truncated, truncated, hvalue]

/-- **Truncation drops the fraction, and it traps exactly where no integer is left.**  What replaces the operator
computes this from the operand, a double or a single. -/
theorem truncation_drops_fraction {m : Module} (henv : env.module = lowered m) (hrules : env.Obeys integerRules)
    {dst src : Width} {signed : Bool} (hop : .truncate dst src signed ∈ softOpsOf m) {v : Value}
    (hv : v.type = src.float) : ∃ ops, replacement? (.truncate dst src signed) = some ops ∧
      Computes env (routineIndex m) ops [v] (truncated dst signed ((format src).decode v.bits)) := by
  have hdouble (hr : .truncate dst signed ∈ routinesFor m) (x : BitVec 64) : Computes env (routineIndex m)
      [.call (.truncate dst signed)] [.f64 x] (truncated dst signed (Ieee.binary64.decode x.toNat)) :=
    Does.computes henv hr rfl (does_truncate hrules dst signed x)
  cases src with
  | x64 =>
    cases v with
    | f64 x => exact ⟨_, rfl, hdouble (mem_routinesFor hop rfl (.head _)) x⟩
    | _ => cases hv
  | x32 =>
    cases v with
    | f32 x =>
      have hpromote : .promote ∈ routinesFor m := mem_routinesFor hop rfl (.head _)
      have hpack : .pack .x64 ∈ routinesFor m := routinesFor_closed hpromote (by decide)
      have htruncate := hdouble (mem_routinesFor hop rfl (.tail _ (.head _)))
        (.ofNat 64 (Ieee.binary64.encode (Ieee.binary32.decode x.toNat)))
      rw [BitVec.toNat_ofNat, Nat.mod_eq_of_lt (encode_lt _), truncated_promoted] at htruncate
      have hpromoted : Computes env (routineIndex m) [.call .promote] [.f32 x]
          (.ok (.f64 (.ofNat 64 (Ieee.binary64.encode (Ieee.binary32.decode x.toNat))))) :=
        Does.computes henv hpromote rfl (does_promote (rounds_of_lowered henv hrules hpack) x)
      exact ⟨_, rfl, @computes_both _ _ _ _ _ [] _ _ _ hpromoted htruncate⟩
    | _ => cases hv

/-- The double nearest to `-2 ^ 31 - 0.9`. -/
theorem truncation_drops_fraction_least : ∃ ops, replacement? (.truncate .x32 .x64 true) = some ops ∧ Computes
    (integerEnv (lowered (operatorModule [.truncate .x32 .x64 true]))) (routineIndex (operatorModule [.truncate .x32 .x64 true]))
    ops [.f64 0xc1e00000001ccccd] (.ok (.i32 0x80000000)) := by
  have hdecode : (format .x64).decode (Value.f64 0xc1e00000001ccccd).bits = .finite true (2 ^ 52 + 0x1ccccd) (-21) := by decide
  have hfloor : ⌊((2 ^ 52 + 0x1ccccd : ℕ) : ℚ) * 2 ^ (-21 : ℤ)⌋₊ = 2 ^ 31 := by
    norm_num
  have hvalue : truncated .x32 true ((format .x64).decode (Value.f64 0xc1e00000001ccccd).bits) = .ok (.i32 0x80000000) := by
    rw [hdecode, truncated, hfloor]
    decide
  rw [← hvalue]
  exact truncation_drops_fraction (module_integerEnv _) (obeys_integerEnv _) (by decide) rfl

end ScoreWasm.SoftFloat
