import Mathlib.Data.List.TakeWhile
import ScoreWasm.Host.Basic
import ScoreWasm.Command.Line
import ScoreWasm.Command.Register
import ScoreWasm.Text.Utf8

/-!
# Whole texts

A text has bytes unless it holds half of a surrogate pair.  Such a half is written with two characters, so a
text of characters that take no part in this is whole; and so are texts that were decoded from bytes.
-/

namespace ScoreWasm.Text

open List Bool

variable {s t : String} {c : Char} {a b : UInt8}

/-- No code point of a text is half of a surrogate pair. -/
def Whole (s : String) : Prop := ∀ n ∈ codes s, isHalf n = false

theorem unencodable?_eq_none {isBad : Nat → Bool} {l : List Nat} (h : ∀ n ∈ l, isBad n = false) :
    unencodable? isBad l = none := by
  have hall : l.takeWhile (fun n => !isBad n) = l := by
    rw [takeWhile_eq_self_iff]
    intro n hn
    rw [h n hn]
    rfl
  unfold unencodable?
  simp only [hall, drop_length]

/-- **A whole text has bytes.** -/
theorem Whole.utf8Array (h : Whole s) : ∃ bs, utf8Array s = .ok bs := by
  unfold Text.utf8Array
  split
  · rw [unencodable?_eq_none h]
    exact ⟨_, rfl⟩
  · exact ⟨_, rfl⟩

theorem isHalf_toNat (c : Char) : isHalf c.toNat = false := by
  have hv := c.valid
  simp only [isHalf, and_eq_false_iff, decide_eq_false_iff_not]
  rcases hv with h | h
  · left
    have : c.toNat < 0xd800 := h
    omega
  · right
    have : 0xdfff < c.toNat := h.1
    omega

/-! ### Plain characters -/

/-- A character that takes no part in the code of a half. -/
def isPlainChar (c : Char) : Bool := !isMark c.toNat && !isTail c.toNat

/-- The text is of plain characters. -/
def isPlain (s : String) : Bool := s.toList.all isPlainChar

theorem isPlainChar_of_lt (h : c.toNat < tailStart) : isPlainChar c = true := by
  have hm : isMark c.toNat = false := by
    simp only [isMark, tailMark, halfMark, or_eq_false_iff, beq_eq_false_iff_ne]
    omega
  have ht : isTail c.toNat = false := by
    simp only [isTail, and_eq_false_iff, decide_eq_false_iff_not]
    omega
  simp [isPlainChar, hm, ht]

theorem notMark_of_isPlainChar (h : isPlainChar c = true) : isMark c.toNat = false := by
  simp only [isPlainChar, and_eq_true, not_eq_true'] at h
  exact h.1

theorem whole_of_isPlain (h : isPlain s = true) : Whole s := by
  have hmark : ∀ c ∈ s.toList, isMark c.toNat = false := fun c hc =>
    notMark_of_isPlainChar (all_eq_true.mp h c hc)
  rw [Whole, codes_eq_codesOf, codesOf_eq_map hmark]
  exact forall_mem_map.mpr fun c _ => isHalf_toNat c

@[simp] theorem isPlain_append : isPlain (s ++ t) = (isPlain s && isPlain t) := by
  simp [isPlain, String.toList_append]

theorem isPlainChar_of_isDigit (h : c.isDigit = true) : isPlainChar c = true := by
  refine isPlainChar_of_lt ?_
  simp only [Char.isDigit, and_eq_true, decide_eq_true_eq] at h
  have : c.toNat ≤ 57 := h.2
  unfold tailStart
  omega

@[simp] theorem isPlain_natText (n : Nat) : isPlain (toString n) = true := by
  rw [Nat.toString_eq_ofList_toDigits, isPlain, String.toList_ofList, all_eq_true]
  exact fun c hc => isPlainChar_of_isDigit (Nat.isDigit_of_mem_toDigits (by decide) (by decide) hc)

/-! ### Decoded texts -/

theorem fitting_le (a : UInt8) (bs : List UInt8) : fitting a bs ≤ bs.length := by
  cases bs with
  | nil => exact Nat.le_refl 0
  | cons b bs =>
    have := (takeWhile_sublist isContinuation (l := bs)).length_le
    simp only [fitting, length_cons]
    split <;> omega

/-- The bytes behind the first one of a character fit: the next one may follow it, and the others continue. -/
theorem fitting_eq_length_iff {tail : List UInt8} : fitting a tail = tail.length ↔
    ∀ b bs, tail = b :: bs → mayFollow a b = true ∧ ∀ c ∈ bs, isContinuation c = true := by
  cases tail with
  | nil => simp [fitting]
  | cons b bs =>
    simp only [fitting, length_cons]
    constructor
    · intro h b' bs' heq
      cases heq
      split at h
      next hb =>
        refine ⟨hb, takeWhile_eq_self_iff.mp ?_⟩
        exact (takeWhile_sublist isContinuation).eq_of_length (by omega)
      next => omega
    · intro h
      obtain ⟨hb, hbs⟩ := h b bs rfl
      rw [if_pos hb, takeWhile_eq_self_iff.mpr hbs]
      omega

/-- What the first byte of a character and the one behind it say about each other, in numbers. -/
theorem mayFollow_iff : mayFollow a b = true ↔
    128 ≤ b.toNat ∧ b.toNat < 192 ∧ (a.toNat = 0xe0 → 0xa0 ≤ b.toNat) ∧ (a.toNat = 0xed → b.toNat < 0xa0) ∧
      (a.toNat = 0xf0 → 0x90 ≤ b.toNat) ∧ (a.toNat = 0xf4 → b.toNat < 0x90) := by
  simp only [mayFollow, isContinuation, and_eq_true, or_eq_true, decide_eq_true_eq, bne_iff_ne,
    ne_eq, ← UInt8.toNat_inj, UInt8.le_iff_toNat_le, UInt8.lt_iff_toNat_lt, UInt8.reduceToNat]
  omega

theorem characterSize_toNat {k : Nat} (h : characterSize a = k + 1) :
    k = 0 ∧ a.toNat < 0x80 ∨ k = 1 ∧ 0xc2 ≤ a.toNat ∧ a.toNat < 0xe0 ∨
      k = 2 ∧ 0xe0 ≤ a.toNat ∧ a.toNat < 0xf0 ∨ k = 3 ∧ 0xf0 ≤ a.toNat ∧ a.toNat < 0xf5 := by
  unfold characterSize at h
  simp only [UInt8.lt_iff_toNat_lt, UInt8.reduceToNat] at h
  repeat' split at h
  all_goals omega

/-- A first byte with as many bytes behind it as it asks for, all of which fit. -/
theorem codePoint_whole {tail : List UInt8} (hsize : characterSize a = tail.length + 1)
    (hfit : fitting a tail = tail.length) :
    (codePoint a tail < 0xd800 ∨ 0xe000 ≤ codePoint a tail) ∧ codePoint a tail < 0x110000 := by
  have hfit := fitting_eq_length_iff.mp hfit
  have ha := characterSize_toNat hsize
  match tail with
  | [] =>
    simp only [codePoint, length_nil, foldl_nil] at ha ⊢
    omega
  | [b] =>
    simp only [codePoint, length_cons, length_nil, foldl_cons, foldl_nil] at ha ⊢
    omega
  | [b, c] =>
    have hb := mayFollow_iff.mp (hfit b [c] rfl).1
    simp only [codePoint, length_cons, length_nil, foldl_cons, foldl_nil] at ha ⊢
    omega
  | [b, c, d] =>
    have hb := mayFollow_iff.mp (hfit b [c, d] rfl).1
    simp only [codePoint, length_cons, length_nil, foldl_cons, foldl_nil] at ha ⊢
    omega
  | _ :: _ :: _ :: _ :: _ =>
    simp only [length_cons] at ha
    omega

theorem decodeCode_eq_ok {rest : List UInt8} {n size : Nat} (h : decodeCode a rest = .ok (n, size)) :
    ∃ tail, rest = tail ++ rest.drop (size - 1) ∧ codePoint a tail = n ∧
      characterSize a = tail.length + 1 ∧ fitting a tail = tail.length := by
  unfold decodeCode at h
  split at h
  · cases h
  next k hk =>
    dsimp only at h
    split at h
    next hgood =>
      cases h
      have hlen : (rest.take k).length = k := by
        have := fitting_le a (rest.take k)
        simp only [beq_iff_eq] at hgood
        simp only [length_take] at this ⊢
        omega
      exact ⟨rest.take k, by simp, rfl, by rw [hlen]; exact hk, (beq_iff_eq.mp hgood).trans hlen.symm⟩
    · split at h <;> cases h

theorem decodeCode_whole {rest : List UInt8} {n size : Nat}
    (h : decodeCode a rest = .ok (n, size)) : isHalf n = false ∧ n < 0x110000 := by
  obtain ⟨tail, -, rfl, hsize, hfit⟩ := decodeCode_eq_ok h
  obtain ⟨hhalf, hlt⟩ := codePoint_whole hsize hfit
  refine ⟨?_, hlt⟩
  simp only [isHalf, and_eq_false_iff, decide_eq_false_iff_not]
  omega

end ScoreWasm.Text
