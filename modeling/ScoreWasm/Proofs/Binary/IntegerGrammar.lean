import ScoreWasm.Proofs.Binary.Truncation

/-!
# The grammar of integers

The standard gives the bytes of an integer by a grammar that spends seven bits of the width on every byte
but the last.  A reader that first collects the bytes, then finds the sign and checks the range of the whole
number accepts the same bytes: each byte in front multiplies both the value and its bounds.
-/

namespace ScoreWasm.Wasm.Binary

open List

variable {signed : Bool} {bits : Nat} {bs : List UInt8} {b : UInt8} {i : Int}

/-- The bytes of an integer of a width.  The last byte has only the bits that are left, and copies of the sign
above them. -/
inductive Encodes (signed : Bool) : Nat → List UInt8 → Int → Prop
  | last {bits : Nat} {b : UInt8} : b.toNat < 128 → InRange signed bits (lastValue signed b) →
      Encodes signed bits [b] (lastValue signed b)
  | more {bits : Nat} {b : UInt8} {bs : List UInt8} {i : Int} : 128 ≤ b.toNat → 0 < bits → Encodes signed bits bs i →
      Encodes signed (bits + 7) (b :: bs) (128 * i + (b.toNat - 128))

theorem Encodes.chained (h : Encodes signed bits bs i) : Chained bs := by
  induction h with
  | last hb _ => exact hb
  | @more bits b bs i hb _ _ ih =>
    cases bs with
    | nil => exact ih.elim
    | cons b' bs => exact ⟨hb, ih⟩

theorem encodes_iff (hbits : 0 < bits) : Encodes signed bits bs i ↔
    Chained bs ∧ bs.length ≤ (bits + 6) / 7 ∧ lebValue signed bs = i ∧ InRange signed bits i := by
  have hfront : ∀ {b : UInt8} (j : Int), 128 ≤ b.toNat → (128 * j + (b.toNat - 128)) / 128 = j := by
    intro b j hb
    have := b.toNat_lt
    omega
  constructor
  · intro h
    refine ⟨h.chained, ?_⟩
    induction h with
    | last hb hi => exact ⟨by simp; omega, lebValue_singleton hb, hi⟩
    | @more bits b bs i hb hpos h ih =>
      obtain ⟨hlen, hval, hi⟩ := ih hpos
      refine ⟨by rw [length_cons]; omega, ?_, ?_⟩
      · rw [lebValue_cons h.chained hb, hval]
      · rwa [inRange_add_seven hpos, hfront i hb]
  · rintro ⟨hbs, hlen, rfl, hi⟩
    induction bs generalizing bits with
    | nil => exact hbs.elim
    | cons b bs ih =>
      cases bs with
      | nil =>
        rw [lebValue_singleton hbs] at hi ⊢
        exact .last hbs hi
      | cons b' bs =>
        obtain ⟨hb, hbs⟩ := hbs
        -- Two bytes or more are allowed only for more than seven bits.
        simp only [length_cons] at hlen ih
        obtain ⟨m, rfl, hm⟩ : ∃ m, bits = m + 7 ∧ 0 < m := ⟨bits - 7, by omega, by omega⟩
        rw [lebValue_cons hbs hb] at hi ⊢
        rw [inRange_add_seven hm, hfront _ hb] at hi
        exact .more hb hm (ih hm hbs (by omega) hi)

/-- The bytes that are written for an integer. -/
def written (signed : Bool) (i : Int) : List UInt8 := if signed then Binary.signed i else unsigned i.toNat

theorem encodes_written (hbits : 0 < bits) (h : InRange signed bits i) : Encodes signed bits (written signed i) i := by
  obtain ⟨k, hk⟩ : ∃ k, (bits + 6) / 7 = k + 1 := ⟨(bits + 6) / 7 - 1, by omega⟩
  have hwide : InRange signed (7 * (k + 1)) i := h.mono (by omega)
  rw [encodes_iff hbits, hk]
  cases signed with
  | true =>
    obtain ⟨hchained, hvalue, hshort⟩ := signed_spec i
    exact ⟨hchained, hshort k hwide, hvalue, h⟩
  | false =>
    obtain ⟨n, rfl⟩ := Int.eq_ofNat_of_zero_le h.1
    have hlt : n < 128 ^ (k + 1) := by
      rw [show 128 = 2 ^ 7 from rfl, ← Nat.pow_mul]
      exact Int.ofNat_lt.mp hwide.2
    exact ⟨chained_unsigned n, length_unsigned_le k.succ_pos hlt, congrArg _ (digits_unsigned n), h⟩

theorem length_written_le (hbits : 0 < bits) (h : Encodes signed bits bs i) : (written signed i).length ≤ bs.length := by
  obtain ⟨hbs, -, rfl, -⟩ := (encodes_iff hbits).mp h
  cases signed with
  | true => exact hbs.length_signed_le
  | false => exact length_unsigned_le hbs.length_pos (digits_lt bs)

/-- An integer of any width is read exactly if its bytes are next, and it is the one they stand for.  The
written bytes are the shortest that are read as it. -/
theorem leb_exact (signed : Bool) (hbits : 0 < bits) :
    (∀ (c : Cursor) (bs rest : List UInt8) (i : Int), c.rest = bs ++ rest → Encodes signed bits bs i →
      leb signed bits c = .ok (i, ⟨c.part, c.pos + bs.length, rest⟩)) ∧
    (∀ c : Cursor, (¬∃ bs rest i, c.rest = bs ++ rest ∧ Encodes signed bits bs i) →
      ∃ e, leb signed bits c = .error e ∧ IsInvalid e) ∧
    ∀ i, InRange signed bits i → Encodes signed bits (written signed i) i ∧
      ∀ bs, Encodes signed bits bs i → (written signed i).length ≤ bs.length := by
  refine ⟨?_, ?_, fun i hi => ⟨encodes_written hbits hi, fun bs => length_written_le hbits⟩⟩
  · rintro ⟨part, pos, _⟩ bs rest i rfl h
    obtain ⟨hbs, hlen, rfl, hi⟩ := (encodes_iff hbits).mp h
    obtain ⟨_, hread, rfl⟩ := Takes.leb hbs hlen hi part pos rest
    exact hread
  · intro c hnone
    cases hread : leb signed bits c with
    | error e => exact ⟨e, rfl, leb_eq_error hread⟩
    | ok r =>
      obtain ⟨bs, hbs, hlen, hval, hi, hrest⟩ := leb_eq_ok hread
      exact absurd ⟨bs, _, _, hrest, (encodes_iff hbits).mpr ⟨hbs, hlen, hval, hi⟩⟩ hnone

/-- Minus one in one byte more than it needs. -/
theorem leb_exact_padded : leb true 33 ⟨"code", 4, [0xff, 0x7f, 0x0b]⟩ = .ok (-1, ⟨"code", 6, [0x0b]⟩) := by
  have hlast : Encodes true 26 [0x7f] (lastValue true 0x7f) := .last (by decide) (by simp [InRange, InWidth, lastValue])
  have hmore : Encodes true (26 + 7) [0xff, 0x7f] _ := .more (by decide) (by decide) hlast
  rw [show 128 * lastValue true 0x7f + ((0xff : UInt8).toNat - 128) = -1 by decide] at hmore
  exact (leb_exact true (by decide)).1 _ [0xff, 0x7f] [0x0b] (-1) rfl hmore

end ScoreWasm.Wasm.Binary
