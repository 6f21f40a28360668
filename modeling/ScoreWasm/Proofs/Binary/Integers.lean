import Mathlib.Tactic.Ring
import Mathlib.Tactic.LinearCombination
import Mathlib.Tactic.Positivity
import ScoreWasm.Proofs.Monad
import ScoreWasm.Wasm.Binary.Decode
import ScoreWasm.Wasm.Binary.Encode

/-!
# Reading what was written

Two statements about a reader are enough to compare it with a writer.  `Takes` says what it gives for
bytes that it is meant for, whatever follows them.  `Gives` says what is true of everything that it gives,
together with the number of bytes that it took for it.  Both compose along the steps of a reader.

Integers are written seven bits a byte.  Reading accepts longer forms as well, but the written one is read
back and is the shortest.
-/

namespace ScoreWasm.Wasm.Binary

open List UInt8 ScoreWasm.StateT

variable {α β : Type} {k count fuel bits : Nat} {b : UInt8} {a : α}

variable {bs : List UInt8} {r : Reader α} {n : Nat} {i : Int}

/-! ### Readers -/

/-- A reader takes given bytes, wherever they stand and whatever follows them, and gives something with a
property. -/
def Takes (r : Reader α) (bs : List UInt8) (P : α → Prop) : Prop :=
  ∀ part pos rest, ∃ a, r ⟨part, pos, bs ++ rest⟩ = .ok (a, ⟨part, pos + bs.length, rest⟩) ∧ P a

/-- All that a reader gives has a property, together with the number of bytes taken for it. -/
def Gives (r : Reader α) (Q : α → Nat → Prop) : Prop :=
  ∀ c a c', r c = .ok (a, c') → ∃ n, c.rest.length = n + c'.rest.length ∧ Q a n

namespace Takes

variable {cs : List UInt8} {P Q : α → Prop} {R : β → Prop}

variable {f : α → Reader β}

theorem pure (h : P a) : Takes (Pure.pure a) [] P :=
  fun _ _ _ => ⟨a, rfl, h⟩

theorem bind (hr : Takes r bs P) (hf : ∀ a, P a → Takes (f a) cs R) : Takes (r >>= f) (bs ++ cs) R := by
  intro part pos rest
  obtain ⟨a, ha, hP⟩ := hr part pos (cs ++ rest)
  obtain ⟨b, hb, hR⟩ := hf a hP part (pos + bs.length) rest
  refine ⟨b, ?_, hR⟩
  rw [append_assoc, length_append, ← Nat.add_assoc]
  exact bind_eq_ok.mpr ⟨a, _, ha, hb⟩

theorem last (hr : Takes r bs P) (hf : ∀ a, P a → Takes (f a) [] R) : Takes (r >>= f) bs R := by
  have := hr.bind hf
  rwa [append_nil] at this

theorem skip (hr : Takes r [] P) (hf : ∀ a, P a → Takes (f a) cs R) : Takes (r >>= f) cs R :=
  hr.bind hf

theorem mono (hr : Takes r bs P) (h : ∀ a, P a → Q a) : Takes r bs Q := by
  intro part pos rest
  obtain ⟨a, ha, hP⟩ := hr part pos rest
  exact ⟨a, ha, h a hP⟩

theorem position : Takes Binary.position [] (fun _ => True) :=
  fun _ pos _ => ⟨pos, rfl, trivial⟩

theorem byte (b : UInt8) : Takes Binary.byte [b] (· = b) :=
  fun _ _ _ => ⟨b, rfl, rfl⟩

theorem byte_bind {f : UInt8 → Reader β} (hf : Takes (f b) cs R) : Takes (Binary.byte >>= f) (b :: cs) R :=
  (byte b).bind (fun _ ha => ha ▸ hf)

end Takes

namespace Gives

variable {Q : α → Nat → Prop} {R : β → Nat → Prop}

variable {f : α → Reader β} {reason : Invalid} {offset : Nat}

theorem pure (h : Q a 0) : Gives (Pure.pure a) Q := by
  rintro c a' c' heq
  cases heq
  exact ⟨0, by omega, h⟩

theorem bind (hr : Gives r Q) (hf : ∀ a n, Q a n → Gives (f a) (fun b m => R b (n + m))) : Gives (r >>= f) R := by
  intro c b c' h
  obtain ⟨a, t, ha, hb⟩ := bind_eq_ok.mp h
  obtain ⟨n, hn, hQ⟩ := hr c a t ha
  obtain ⟨m, hm, hR⟩ := hf a n hQ t b c' hb
  exact ⟨n + m, by omega, hR⟩

theorem mono {Q' : α → Nat → Prop} (hr : Gives r Q) (h : ∀ a n, Q a n → Q' a n) : Gives r Q' := by
  intro c a c' heq
  obtain ⟨n, hn, hQ⟩ := hr c a c' heq
  exact ⟨n, hn, h a n hQ⟩

theorem failAt : Gives (Binary.failAt reason offset) Q := by
  intro c a c' h
  cases h

theorem failAt_bind : Gives (Binary.failAt reason offset >>= f) R :=
  (failAt (Q := fun _ _ => False)).bind (fun _ _ h => h.elim)

theorem refuse {feature construct : String} : Gives (Binary.refuse feature construct offset) Q := by
  intro c a c' h
  cases h

theorem ite {p : Prop} [Decidable p] {x y : Reader α} (hx : p → Gives x Q) (hy : ¬p → Gives y Q) :
    Gives (if p then x else y) Q := by
  split
  · exact hx ‹p›
  · exact hy ‹¬p›

theorem position : Gives Binary.position (fun _ n => n = 0) := by
  rintro c a c' h
  cases h
  exact ⟨0, by omega, rfl⟩

theorem byte : Gives Binary.byte (fun _ n => n = 1) := by
  rintro ⟨part, pos, rest⟩ a c' h
  cases rest with
  | nil => cases h
  | cons b rest =>
    cases h
    exact ⟨1, by simp [Nat.add_comm], rfl⟩

end Gives

/-! ### Single bytes -/

theorem Takes.peek {f : UInt8 → Reader β} {R : β → Prop} (hf : Takes (f b) (b :: bs) R) :
    Takes (Binary.peek >>= f) (b :: bs) R :=
  fun part pos rest => hf part pos rest

theorem Gives.peek : Gives Binary.peek (fun _ n => n = 0) := by
  rintro ⟨part, pos, rest⟩ a c' h
  cases rest with
  | nil => cases h
  | cons b rest =>
    cases h
    exact ⟨0, by simp, rfl⟩

theorem Takes.discard {P : α → Prop} (hr : Takes r bs P) : Takes (Functor.discard r) bs (fun _ => True) := by
  intro part pos rest
  obtain ⟨a, ha, -⟩ := hr part pos rest
  exact ⟨(), discard_eq_ok.mpr ⟨a, ha⟩, trivial⟩

theorem Gives.discard {Q : α → Nat → Prop} (hr : Gives r Q) : Gives (Functor.discard r) (fun _ n => ∃ a, Q a n) := by
  intro c u c' h
  obtain ⟨a, ha⟩ := discard_eq_ok.mp h
  obtain ⟨n, hn, hQ⟩ := hr c a c' ha
  exact ⟨n, hn, a, hQ⟩

/-! ### Bytes -/

theorem takeExact_append (bs rest acc : List UInt8) :
    takeExact bs.length acc (bs ++ rest) = some (acc.reverse ++ bs, rest) := by
  induction bs generalizing acc with
  | nil => simp [takeExact]
  | cons b bs ih =>
    rw [length_cons, cons_append, takeExact, ih]
    simp

theorem takeExact_eq_some {acc bs inside rest : List UInt8} (h : takeExact n acc bs = some (inside, rest)) :
    ∃ taken, inside = acc.reverse ++ taken ∧ taken.length = n ∧ bs = taken ++ rest := by
  induction n generalizing acc bs inside rest with
  | zero =>
    cases h
    exact ⟨[], by simp⟩
  | succ n ih =>
    cases bs with
    | nil => cases h
    | cons b bs =>
      obtain ⟨taken, rfl, hlen, rfl⟩ := ih h
      exact ⟨b :: taken, by simp, by simp [hlen], rfl⟩

theorem Takes.bytes (bs : List UInt8) : Takes (Binary.bytes bs.length) bs (· = bs) := by
  intro part pos rest
  refine ⟨bs, ?_, rfl⟩
  simp only [Binary.bytes]
  rw [takeExact_append]
  rfl

theorem Gives.bytes (k : Nat) : Gives (Binary.bytes k) (fun bs n => bs.length = n ∧ n = k) := by
  rintro ⟨part, pos, rest⟩ bs c' h
  simp only [Binary.bytes] at h
  split at h
  next taken rest' heq =>
    obtain ⟨t, rfl, hlen, rfl⟩ := takeExact_eq_some heq
    cases h
    exact ⟨k, by simp [hlen], hlen, rfl⟩
  next => cases h

/-! ### Digits -/

/-- The number that seven bits a byte stand for, the lowest first. -/
def digits : List UInt8 → Nat
  | [] => 0
  | b :: bs => b.toNat % 128 + 128 * digits bs

/-- Every byte but the last has its top bit set. -/
def Chained : List UInt8 → Prop
  | [] => False
  | [b] => b.toNat < 128
  | b :: bs => 128 ≤ b.toNat ∧ Chained bs

theorem two_pow_add_seven (shift : Nat) : 2 ^ (shift + 7) = 128 * 2 ^ shift := by
  ring

theorem Takes.lebDigits (start : Nat) (h : Chained bs) (hfuel : bs.length ≤ fuel) (acc shift : Nat) :
    Takes (Binary.lebDigits start fuel acc shift) bs (· = (acc + digits bs * 2 ^ shift, shift + 7 * bs.length)) := by
  induction bs generalizing fuel acc shift with
  | nil => exact h.elim
  | cons b bs ih =>
    rw [length_cons] at hfuel
    obtain ⟨fuel, rfl⟩ : ∃ k, fuel = k + 1 := ⟨fuel - 1, by omega⟩
    refine .byte_bind ?_
    have hlt : b < 128 ↔ b.toNat < 128 := lt_iff_toNat_lt
    cases bs with
    | nil =>
      rw [if_pos (hlt.mpr h)]
      exact .pure (by simp [digits])
    | cons b' bs =>
      obtain ⟨hb, hbs⟩ := h
      rw [if_neg (by rw [hlt]; omega)]
      refine (ih hbs (by omega) _ _).mono (fun p hp => hp.trans ?_)
      simp only [digits, length_cons, Prod.mk.injEq]
      exact ⟨by ring, by ring⟩

theorem lebDigits_eq_ok {start acc shift : Nat} {p : Nat × Nat} {c c' : Cursor}
    (h : lebDigits start fuel acc shift c = .ok (p, c')) : ∃ bs, Chained bs ∧ bs.length ≤ fuel ∧
      c.rest = bs ++ c'.rest ∧ p = (acc + digits bs * 2 ^ shift, shift + 7 * bs.length) := by
  induction fuel generalizing acc shift c with
  | zero => cases h
  | succ fuel ih =>
    obtain ⟨part, pos, _ | ⟨b, rest⟩⟩ := c
    · cases h
    obtain ⟨b, t, hb, h⟩ := bind_eq_ok.mp h
    cases hb
    have hlt : b < 128 ↔ b.toNat < 128 := lt_iff_toNat_lt
    split at h
    next hb =>
      cases h
      exact ⟨[b], hlt.mp hb, by simp, rfl, by simp [digits]⟩
    next hb =>
      obtain ⟨bs, hbs, hlen, hrest, rfl⟩ := ih h
      refine ⟨b :: bs, ?_, by simpa using hlen, congrArg (b :: ·) hrest, ?_⟩
      · cases bs with
        | nil => exact hbs.elim
        | cons b' bs => exact ⟨by rw [hlt] at hb; omega, hbs⟩
      · rw [two_pow_add_seven]
        simp only [digits, length_cons, Prod.mk.injEq]
        exact ⟨by ring, by ring⟩

theorem digits_lt (bs : List UInt8) : digits bs < 128 ^ bs.length := by
  induction bs with
  | nil => simp [digits]
  | cons b bs ih =>
    rw [digits, length_cons, Nat.pow_succ]
    omega

theorem Chained.length_pos (h : Chained bs) : 0 < bs.length := by
  cases bs with
  | nil => exact h.elim
  | cons b bs => exact Nat.succ_pos _

/-! ### Unsigned integers -/

theorem toNat_ofNat_low (h : n < 256) : (ofNat n).toNat = n := toNat_ofNat_of_lt' h

theorem unsigned_of_lt (h : n < 128) : unsigned n = [ofNat n] := by
  rw [unsigned, if_pos h]

theorem unsigned_ne_nil (n : Nat) : unsigned n ≠ [] := by
  rw [unsigned]
  split <;> simp

theorem chained_unsigned (n : Nat) : Chained (unsigned n) := by
  fun_induction unsigned n with
  | case1 n h =>
    show (ofNat n).toNat < 128
    rw [toNat_ofNat_low (by omega)]
    exact h
  | case2 n h ih =>
    obtain ⟨b, bs, hbs⟩ := exists_cons_of_ne_nil (unsigned_ne_nil (n / 128))
    rw [hbs] at ih ⊢
    refine ⟨?_, ih⟩
    rw [toNat_ofNat_low (by omega)]
    omega

theorem digits_unsigned (n : Nat) : digits (unsigned n) = n := by
  fun_induction unsigned n with
  | case1 n h =>
    simp only [digits, toNat_ofNat_low (show n < 256 by omega)]
    omega
  | case2 n h ih =>
    simp only [digits, toNat_ofNat_low (show 128 + n % 128 < 256 by omega), ih]
    omega

theorem length_unsigned_le (hk : 0 < k) (h : n < 128 ^ k) : (unsigned n).length ≤ k := by
  induction k generalizing n with
  | zero => omega
  | succ k ih =>
    rw [unsigned]
    split
    · simp
    next hn =>
      have hpos : 0 < k := by
        rcases Nat.eq_zero_or_pos k with rfl | hk
        · simp at h
          omega
        · exact hk
      exact Nat.succ_le_succ (ih hpos (by omega))

theorem length_unsigned_of_lt (h : n < 2 ^ 32) : (unsigned n).length ≤ 5 := length_unsigned_le (by omega) (by omega)

/-! ### The value of bytes -/

/-- A number has a width, with a sign. -/
def InWidth (bits : Nat) (i : Int) : Prop := -(2 ^ (bits - 1)) ≤ i ∧ i < 2 ^ (bits - 1)

/-- A number has a width, with a sign or without one. -/
def InRange (signed : Bool) (bits : Nat) (i : Int) : Prop := if signed then InWidth bits i else 0 ≤ i ∧ i < 2 ^ bits

/-- The integer that digits with a sign stand for. -/
def signedValue (n shift : Nat) : Int := if 2 ^ (shift - 1) ≤ n then (n : Int) - 2 ^ shift else n

/-- The integer that bytes stand for. -/
def lebValue (signed : Bool) (bs : List UInt8) : Int :=
  if signed then signedValue (digits bs) (7 * bs.length) else digits bs

/-- The number in the last byte of an integer.  Its seventh bit may be the sign. -/
def lastValue (signed : Bool) (b : UInt8) : Int := if signed ∧ 64 ≤ b.toNat then b.toNat - 128 else b.toNat

section

variable {signed : Bool} {c c' : Cursor}

instance : Decidable (InRange signed bits i) := by
  unfold InRange InWidth
  infer_instance

theorem two_pow_seven_mul (k : Nat) : (2 : Int) ^ (7 * (k + 1)) = 128 * 128 ^ k ∧ 2 ^ (7 * (k + 1) - 1) = 64 * 128 ^ k := by
  constructor
  · rw [pow_mul, pow_succ, mul_comm]
    rfl
  · rw [show 7 * (k + 1) - 1 = 6 + 7 * k by omega, Nat.pow_add, Nat.pow_mul]

theorem lebValue_singleton (h : b.toNat < 128) : lebValue signed [b] = lastValue signed b := by
  cases signed with
  | false | true => simp [lebValue, lastValue, signedValue, digits, Nat.mod_eq_of_lt h]

/-- A byte in front of others multiplies their value. -/
theorem lebValue_cons (h : Chained bs) (hb : 128 ≤ b.toNat) :
    lebValue signed (b :: bs) = 128 * lebValue signed bs + (b.toNat - 128) := by
  have hlt := b.toNat_lt
  have hdigits : (digits (b :: bs) : Int) = b.toNat - 128 + 128 * digits bs := by
    simp only [digits]
    omega
  cases signed with
  | false =>
    simp only [lebValue, Bool.false_eq_true, if_false, hdigits]
    ring
  | true =>
    obtain ⟨k, hk⟩ : ∃ k, bs.length = k + 1 := ⟨bs.length - 1, by have := h.length_pos; omega⟩
    obtain ⟨hfull, hhalf⟩ := two_pow_seven_mul k
    obtain ⟨hfull', hhalf'⟩ := two_pow_seven_mul (k + 1)
    simp only [lebValue, if_true, signedValue, length_cons, hk, hfull, hhalf, hfull', hhalf', pow_succ]
    split <;> split <;> omega

/-- It multiplies the bounds as well. -/
theorem inRange_add_seven (hbits : 0 < bits) : InRange signed (bits + 7) i ↔ InRange signed bits (i / 128) := by
  obtain ⟨m, rfl⟩ : ∃ m, bits = m + 1 := ⟨bits - 1, by omega⟩
  have hpow : ∀ k, (2 : Int) ^ (k + 7) = 128 * 2 ^ k := fun k => by rw [pow_add, mul_comm]; rfl
  cases signed with
  | false =>
    simp only [InRange, Bool.false_eq_true, if_false, hpow]
    omega
  | true =>
    simp only [InRange, InWidth, if_true, show m + 1 + 7 - 1 = m + 7 by omega, Nat.add_sub_cancel, hpow]
    omega

theorem InRange.mono {more : Nat} (h : InRange signed bits i) (hle : bits ≤ more) : InRange signed more i := by
  have hpow : (2 : Int) ^ bits ≤ 2 ^ more := pow_le_pow_right₀ (by decide) hle
  have hhalf : (2 : Int) ^ (bits - 1) ≤ 2 ^ (more - 1) := pow_le_pow_right₀ (by decide) (by omega)
  cases signed with
  | false => exact ⟨h.1, h.2.trans_le hpow⟩
  | true => exact ⟨(neg_le_neg hhalf).trans h.1, h.2.trans_le hhalf⟩

theorem inRange_lebValue (h : Chained bs) : InRange signed (7 * bs.length) (lebValue signed bs) := by
  induction bs with
  | nil => exact h.elim
  | cons b bs ih =>
    cases bs with
    | nil =>
      simp only [Chained] at h
      rw [lebValue_singleton h]
      cases signed with
      | false | true => simp [InRange, InWidth, lastValue]; omega
    | cons b' bs =>
      obtain ⟨hb, hbs⟩ := h
      have := b.toNat_lt
      rw [length_cons, Nat.mul_succ, inRange_add_seven (by simp), lebValue_cons hbs hb,
        show (128 * lebValue signed (b' :: bs) + (b.toNat - 128)) / 128 = lebValue signed (b' :: bs) by omega]
      exact ih hbs

/-! ### Signed integers -/

theorem inRange_seven_iff : InRange true 7 i ↔
    i / 128 = 0 ∧ (i % 128).toNat < 64 ∨ i / 128 = -1 ∧ 64 ≤ (i % 128).toNat := by
  simp only [InRange, InWidth, if_true]
  omega

theorem signedBytes_succ (fuel : Nat) (i : Int) : signedBytes (fuel + 1) i =
    if InRange true 7 i then [ofNat (i % 128).toNat]
    else ofNat (128 + (i % 128).toNat) :: signedBytes fuel (i / 128) := by
  conv_lhs => unfold signedBytes
  rw [Int.fdiv_eq_ediv_of_nonneg i (by omega)]
  refine if_congr ?_ rfl rfl
  rw [inRange_seven_iff]
  simp only [Bool.or_eq_true, Bool.and_eq_true, beq_iff_eq, decide_eq_true_eq]
  exact Iff.rfl

theorem signed_last (h : InRange true 7 i) :
    Chained [ofNat (i % 128).toNat] ∧ lebValue true [ofNat (i % 128).toNat] = i := by
  have hlow : (ofNat (i % 128).toNat).toNat = (i % 128).toNat := toNat_ofNat_low (by omega)
  have hchained : (ofNat (i % 128).toNat).toNat < 128 := by omega
  refine ⟨hchained, ?_⟩
  simp only [lebValue_singleton hchained, lastValue, hlow, true_and]
  rw [inRange_seven_iff] at h
  split <;> omega

/-- The bytes of a signed integer stand for it, and they are as few as it needs. -/
theorem signedBytes_spec (h : InRange true (7 * (fuel + 1)) i) :
    Chained (signedBytes (fuel + 1) i) ∧ lebValue true (signedBytes (fuel + 1) i) = i ∧
      ∀ k, InRange true (7 * (k + 1)) i → (signedBytes (fuel + 1) i).length ≤ k + 1 := by
  induction fuel generalizing i with
  | zero =>
    rw [signedBytes_succ, if_pos h]
    exact ⟨(signed_last h).1, (signed_last h).2, by simp⟩
  | succ fuel ih =>
    rw [signedBytes_succ]
    split
    next h7 => exact ⟨(signed_last h7).1, (signed_last h7).2, by simp⟩
    next h7 =>
      obtain ⟨hchained, hvalue, hshort⟩ := ih ((inRange_add_seven (by omega)).mp h)
      have hhigh : (ofNat (128 + (i % 128).toNat)).toNat = 128 + (i % 128).toNat := toNat_ofNat_low (by omega)
      refine ⟨?_, ?_, fun k hk => ?_⟩
      · obtain ⟨b, bs, hbs⟩ := exists_cons_of_length_pos hchained.length_pos
        rw [hbs] at hchained ⊢
        exact ⟨by omega, hchained⟩
      · rw [lebValue_cons hchained (by omega), hvalue]
        omega
      · cases k with
        | zero => exact absurd hk h7
        | succ k => exact Nat.succ_le_succ (hshort k ((inRange_add_seven (by omega)).mp hk))

theorem signed_spec (i : Int) : Chained (Binary.signed i) ∧ lebValue true (Binary.signed i) = i ∧
    ∀ k, InRange true (7 * (k + 1)) i → (Binary.signed i).length ≤ k + 1 := by
  refine signedBytes_spec ?_
  have hlog : (i.natAbs : Int) < 2 ^ (i.natAbs.log2 + 1) := by exact_mod_cast Nat.lt_log2_self
  have hrange : InRange true (i.natAbs.log2 + 2) i := by
    simp only [InRange, InWidth, if_true, show i.natAbs.log2 + 2 - 1 = i.natAbs.log2 + 1 by omega]
    omega
  exact hrange.mono (by omega)

theorem Chained.length_signed_le (h : Chained bs) : (Binary.signed (lebValue true bs)).length ≤ bs.length := by
  obtain ⟨k, hk⟩ : ∃ k, bs.length = k + 1 := ⟨bs.length - 1, by have := h.length_pos; omega⟩
  have hrange : InRange true _ (lebValue true bs) := inRange_lebValue h
  rw [hk] at hrange ⊢
  exact (signed_spec _).2.2 k hrange

/-! ### Reading integers -/

theorem leb_of_lebDigits (h : lebDigits c.pos ((bits + 6) / 7) 0 0 c = .ok ((digits bs, 7 * bs.length), c')) :
    leb signed bits c = if InRange signed bits (lebValue signed bs) then .ok (lebValue signed bs, c')
      else .error (.invalid .integerTooLarge (some c'.part) (some c.pos)) := by
  have hcast : (digits bs : Int) < 2 ^ bits ↔ digits bs < 2 ^ bits := by norm_cast
  have happ : ∀ {p : Prop} [Decidable p] (i : Int), (if p then pure i else failAt .integerTooLarge c.pos : Reader Int) c' =
      if p then .ok (i, c') else .error (.invalid .integerTooLarge (some c'.part) (some c.pos)) := by
    intro p _ i
    split <;> rfl
  cases signed with
  | false | true => simp [leb, position, bind, StateT.bind, Except.bind, h, lebValue, InRange, InWidth, signedValue, hcast, happ]

theorem Takes.leb (h : Chained bs) (hlen : bs.length ≤ (bits + 6) / 7)
    (hi : InRange signed bits (lebValue signed bs)) : Takes (Binary.leb signed bits) bs (· = lebValue signed bs) := by
  intro part pos rest
  obtain ⟨p, hp, rfl⟩ := Takes.lebDigits pos h hlen 0 0 part pos rest
  rw [Nat.pow_zero, Nat.mul_one, Nat.zero_add, Nat.zero_add] at hp
  exact ⟨_, (leb_of_lebDigits hp).trans (if_pos hi), rfl⟩

theorem leb_eq_ok (h : leb signed bits c = .ok (i, c')) :
    ∃ bs, Chained bs ∧ bs.length ≤ (bits + 6) / 7 ∧ lebValue signed bs = i ∧ InRange signed bits i ∧
      c.rest = bs ++ c'.rest := by
  obtain ⟨_, _, hpos, hd⟩ := bind_eq_ok.mp h
  cases hpos
  obtain ⟨p, t, hd, -⟩ := bind_eq_ok.mp hd
  obtain ⟨bs, hbs, hlen, hrest, rfl⟩ := lebDigits_eq_ok hd
  rw [Nat.pow_zero, Nat.mul_one, Nat.zero_add, Nat.zero_add] at hd
  rw [leb_of_lebDigits hd] at h
  split at h
  next hi =>
    cases h
    exact ⟨bs, hbs, hlen, rfl, hi, hrest⟩
  next => cases h

end

theorem Takes.u32_of_chained (h : Chained bs) (hlen : bs.length ≤ 5) (hn : digits bs < 2 ^ 32) :
    Takes Binary.u32 bs (· = digits bs) := by
  have hi : InRange false 32 (lebValue false bs) := ⟨Int.natCast_nonneg _, Int.ofNat_lt.mpr hn⟩
  exact (Takes.leb h hlen hi).last (fun i hi => .pure (congrArg Int.toNat hi))

theorem Takes.u32 (h : n < 2 ^ 32) : Takes Binary.u32 (unsigned n) (· = n) := by
  have htakes := Takes.u32_of_chained (chained_unsigned n) (length_unsigned_of_lt h) (by rwa [digits_unsigned])
  rwa [digits_unsigned] at htakes

theorem u32_eq_ok {c c' : Cursor} (h : u32 c = .ok (n, c')) :
    ∃ bs, Chained bs ∧ bs.length ≤ 5 ∧ digits bs = n ∧ n < 2 ^ 32 ∧ c.rest = bs ++ c'.rest := by
  obtain ⟨i, t, hi, h⟩ := bind_eq_ok.mp h
  cases h
  obtain ⟨bs, hbs, hlen, rfl, hlt, hrest⟩ := leb_eq_ok hi
  exact ⟨bs, hbs, hlen, rfl, Int.ofNat_lt.mp hlt.2, hrest⟩

theorem Gives.u32 : Gives Binary.u32 (fun v n => v < 2 ^ 32 ∧ 0 < n ∧ (unsigned v).length ≤ n) := by
  intro c v c' h
  obtain ⟨bs, hbs, -, rfl, hlt, hrest⟩ := u32_eq_ok h
  exact ⟨bs.length, by rw [hrest, length_append], hlt, hbs.length_pos, length_unsigned_le hbs.length_pos (digits_lt bs)⟩

theorem Takes.signedLeb (h : InRange true bits i) (hb : 0 < bits) : Takes (Binary.signedLeb bits) (signed i) (· = i) := by
  obtain ⟨hchained, hvalue, hshort⟩ := signed_spec i
  have hlen := hshort ((bits + 6) / 7 - 1) (h.mono (by omega))
  have htakes : Takes (Binary.leb true bits) _ _ := Takes.leb hchained (hlen.trans (by omega)) (hvalue.symm ▸ h)
  rwa [hvalue] at htakes

theorem Gives.signedLeb (bits : Nat) :
    Gives (Binary.signedLeb bits) (fun i n => InWidth bits i ∧ (signed i).length ≤ n) := by
  intro c i c' h
  obtain ⟨bs, hbs, -, rfl, hi, hrest⟩ := leb_eq_ok h
  exact ⟨bs.length, by rw [hrest, length_append], hi, hbs.length_signed_le⟩

/-! ### Fixed numbers of bytes -/

/-- The bytes of a number, the lowest first. -/
def lowBytes (count n : Nat) : List UInt8 := (List.range count).map (fun k => ofNat (n / 2 ^ (8 * k)))

theorem lowBytes_succ (count n : Nat) : lowBytes (count + 1) n = ofNat n :: lowBytes count (n / 256) := by
  unfold lowBytes
  rw [range_succ_eq_map, map_cons, map_map]
  congr 1
  · simp
  · refine map_congr_left (fun k _ => ?_)
    simp only [Function.comp_apply]
    rw [Nat.div_div_eq_div_mul, show 8 * k.succ = 8 + 8 * k by omega, Nat.pow_add]

theorem foldr_lowBytes (h : n < 256 ^ count) :
    (lowBytes count n).foldr (fun b v => v * 256 + b.toNat) 0 = n := by
  induction count generalizing n with
  | zero =>
    simp at h
    simp [lowBytes, h]
  | succ count ih =>
    rw [lowBytes_succ, foldr_cons, ih (by omega)]
    have : (ofNat n).toNat = n % 256 := toNat_ofNat'
    omega

theorem foldr_lt (bs : List UInt8) : bs.foldr (fun b v => v * 256 + b.toNat) 0 < 256 ^ bs.length := by
  induction bs with
  | nil => simp
  | cons b bs ih =>
    have := b.toNat_lt
    rw [foldr_cons, length_cons, Nat.pow_succ]
    omega

theorem fixed_natCast (h : n < 256 ^ count) : fixed count n = .ok (lowBytes count n) := by
  have hlt : (n : Int) < 2 ^ (8 * count) := by
    rw [pow_mul]
    exact_mod_cast h
  unfold fixed
  rw [if_pos (by simp [hlt])]
  rfl

theorem Takes.fixedNat (h : n < 256 ^ count) : Takes (Binary.fixedNat count) (lowBytes count n) (· = n) := by
  have hlen : (lowBytes count n).length = count := by simp [lowBytes]
  have hbytes := Takes.bytes (lowBytes count n)
  rw [hlen] at hbytes
  refine hbytes.last (fun bs hbs => Takes.pure ?_)
  rw [hbs, foldr_lowBytes h]

theorem Gives.fixedNat (count : Nat) : Gives (Binary.fixedNat count) (fun v n => v < 256 ^ count ∧ n = count) := by
  refine (Gives.bytes count).bind (fun bs n hn => Gives.pure ?_)
  obtain ⟨hlen, rfl⟩ := hn
  exact ⟨hlen ▸ foldr_lt bs, rfl⟩

end ScoreWasm.Wasm.Binary
