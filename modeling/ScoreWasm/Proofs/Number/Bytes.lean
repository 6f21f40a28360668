import ScoreWasm.Proofs.Number.Exact

/-!
# Bytes of a word

A word is four bytes, the lowest first, whatever its sign.  A byte is taken out by floored division and
remainder; it is replaced by adding the difference at its place, and the other bytes stay as they are
(`byteOf_replace`).
-/

namespace ScoreWasm.Word

open Machine.View

/-- A byte of an integer, counted from the lowest. -/
def byteOf (i : Int) (k : Nat) : UInt8 := UInt8.ofNat (i / 256 ^ k % 256).toNat

/-- The number that bytes stand for, the lowest first. -/
def littleEndian : List UInt8 → Nat
  | [] => 0
  | b :: bs => b.toNat + 256 * littleEndian bs

theorem toNat_byteOf (i : Int) (k : Nat) : ((byteOf i k).toNat : Int) = i / 256 ^ k % 256 := by
  rw [byteOf, UInt8.toNat_ofNat', Nat.mod_eq_of_lt (by omega)]
  omega

theorem byteOf_eq_iff {i j : Int} {k l : Nat} : byteOf i k = byteOf j l ↔ i / 256 ^ k % 256 = j / 256 ^ l % 256 := by
  rw [← toNat_byteOf, ← toNat_byteOf, Int.natCast_inj, UInt8.toNat_inj]

theorem wrap32_wrap32 (i : Int) : wrap32 (wrap32 i) = wrap32 i := wrap32_of_isWord (isWord_wrap32 i)

theorem wrap32_emod (i : Int) : wrap32 i % 2 ^ 32 = i % 2 ^ 32 := Int.bmod_emod

theorem wrap32_eq (i : Int) : wrap32 i = (i + 2 ^ 31) % 2 ^ 32 - 2 ^ 31 := by
  have hleast := Int.le_bmod (x := i) (m := 2 ^ 32) (by decide)
  have hmost := Int.bmod_lt (x := i) (m := 2 ^ 32) (by decide)
  have hmod : (i.bmod (2 ^ 32)) % 2 ^ 32 = i % 2 ^ 32 := Int.bmod_emod
  rw [wrap32]
  omega

theorem wrap32_add (i j : Int) : wrap32 (wrap32 i + j) = wrap32 (i + j) := Int.bmod_add_bmod

theorem add_wrap32 (i j : Int) : wrap32 (i + wrap32 j) = wrap32 (i + j) := Int.add_bmod_bmod

theorem wrap32_sub (i j : Int) : wrap32 (wrap32 i - j) = wrap32 (i - j) := Int.bmod_sub_bmod

theorem sub_wrap32 (i j : Int) : wrap32 (i - wrap32 j) = wrap32 (i - j) := Int.sub_bmod_bmod

theorem wrap32_congr {i j : Int} (h : i % 2 ^ 32 = j % 2 ^ 32) : wrap32 i = wrap32 j := by
  have hmod : ∀ i, wrap32 i = wrap32 (i % 2 ^ 32) := fun i => (Int.emod_bmod i (2 ^ 32)).symm
  rw [hmod i, hmod j, h]

theorem place_cases {k : Nat} (h : k < 4) : k = 0 ∨ k = 1 ∨ k = 2 ∨ k = 3 := by omega

/-- The bytes of a word only depend on what it is modulo the number of words. -/
theorem byteOf_congr {i j : Int} (h : i % 2 ^ 32 = j % 2 ^ 32) {k : Nat} (hk : k < 4) : byteOf i k = byteOf j k := by
  rw [byteOf_eq_iff]
  rcases place_cases hk with rfl | rfl | rfl | rfl <;> norm_num <;> omega

@[simp] theorem byteOf_wrap32 (i : Int) {k : Nat} (hk : k < 4) : byteOf (wrap32 i) k = byteOf i k :=
  byteOf_congr (wrap32_emod i) hk

/-- **A byte is replaced by adding the difference at its place.** -/
theorem byteOf_replace (w x : Int) {k j : Nat} (hk : k < 4) (hj : j < 4) :
    byteOf (wrap32 (w + wrap32 ((x % 256 - w / 256 ^ k % 256) * 256 ^ k))) j
      = if j = k then byteOf x 0 else byteOf w j := by
  rw [byteOf_wrap32 _ hj]
  have hcongr : (w + wrap32 ((x % 256 - w / 256 ^ k % 256) * 256 ^ k)) % 2 ^ 32
      = (w + (x % 256 - w / 256 ^ k % 256) * 256 ^ k) % 2 ^ 32 := by
    rw [Int.add_emod, wrap32_emod, ← Int.add_emod]
  rw [byteOf_congr hcongr hj]
  split
  · next heq =>
    subst heq
    rw [byteOf_eq_iff]
    rcases place_cases hj with rfl | rfl | rfl | rfl <;> norm_num <;> omega
  · next hne =>
    rw [byteOf_eq_iff]
    rcases place_cases hk with rfl | rfl | rfl | rfl <;> rcases place_cases hj with rfl | rfl | rfl | rfl <;>
      norm_num <;> omega

/-- A word is the number that its bytes stand for. -/
theorem littleEndian_word (w : Int) :
    (littleEndian [byteOf w 0, byteOf w 1, byteOf w 2, byteOf w 3] : Int) % 2 ^ 32 = w % 2 ^ 32 := by
  simp only [littleEndian, Nat.cast_add, Nat.cast_mul, toNat_byteOf]
  norm_num
  omega

theorem littleEndian_append (bs : List UInt8) (b : UInt8) :
    littleEndian (bs ++ [b]) = littleEndian bs + 256 ^ bs.length * b.toNat := by
  induction bs with
  | nil => simp [littleEndian]
  | cons c bs ih =>
    simp only [List.cons_append, littleEndian, ih, List.length_cons, pow_succ]
    ring

theorem littleEndian_lt (bs : List UInt8) : littleEndian bs < 256 ^ bs.length := by
  induction bs with
  | nil => simp [littleEndian]
  | cons b bs ih =>
    have := b.toNat_lt
    simp only [littleEndian, List.length_cons, pow_succ]
    omega

theorem isWord_ediv {x y : Int} (hx : IsWord x) (hy : 0 < y) : IsWord (x / y) := by
  obtain ⟨hlo, hhi⟩ := hx
  constructor
  · rw [Int.le_ediv_iff_mul_le hy]
    nlinarith
  · rw [Int.ediv_lt_iff_lt_mul hy]
    nlinarith

theorem isWord_emod {x y : Int} (hy : 0 < y) (hw : IsWord y) : IsWord (x % y) := by
  have hpos := Int.emod_nonneg x hy.ne'
  have hlt := Int.emod_lt_of_pos x hy
  obtain ⟨-, hhi⟩ := hw
  constructor
  · omega
  · omega

end ScoreWasm.Word
