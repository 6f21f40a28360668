import ScoreWasm.Proofs.Command.Words

/-!
# Words, lines and numbers as they are written

Words of visible characters come back from a line that was joined from them (`words_join`), and lines from
a text (`lines_join`).  The digits of a number are read as the number, in base ten up to the limit on their
count and in base sixteen without one.
-/

namespace ScoreWasm

open List

namespace Text

variable {c : Char} {t : String} {cs : List Char} {ws : List String}

/-! ### Words -/

/-- A character of a word: visible, and no beginning of a comment. -/
def isTokenChar (c : Char) : Bool := 33 ≤ c.toNat && c.toNat < 127 && c != ';'

/-- A word the reader takes whole. -/
def IsToken (w : String) : Prop := w.toList ≠ [] ∧ ∀ c ∈ w.toList, isTokenChar c = true

instance (w : String) : Decidable (IsToken w) :=
  decidable_of_iff (w.toList ≠ [] ∧ w.toList.all isTokenChar) (by simp [IsToken])

theorem of_isTokenChar (h : isTokenChar c = true) : isBlank c = false ∧ isLineBreak c = false ∧ c ≠ ';' := by
  simp only [isTokenChar, Bool.and_eq_true, decide_eq_true_eq, bne_iff_ne] at h
  refine ⟨?_, ?_, h.2⟩
  · simp only [isBlank, Bool.or_eq_false_iff, Bool.and_eq_false_iff, decide_eq_false_iff_not, beq_eq_false_iff_ne]
    omega
  · simp only [isLineBreak, Bool.or_eq_false_iff, Bool.and_eq_false_iff, decide_eq_false_iff_not, beq_eq_false_iff_ne]
    omega

theorem mem_join : ∀ {ws : List String}, c ∈ (join t ws).toList → c ∈ t.toList ∨ ∃ w ∈ ws, c ∈ w.toList
  | [w], h => .inr ⟨w, mem_cons_self, h⟩
  | w :: w' :: ws, h => by
    rw [join_cons, String.toList_append, String.toList_append, mem_append, mem_append] at h
    rcases h with h | h | h
    · exact .inr ⟨w, mem_cons_self, h⟩
    · exact .inl h
    · exact (mem_join h).imp_right fun ⟨x, hx, h⟩ => ⟨x, mem_cons_of_mem w hx, h⟩

theorem words_join (h : ∀ w ∈ ws, IsToken w) : words (join " " ws) = ws := by
  cases ws with
  | nil => rfl
  | cons w ws =>
    unfold words
    rw [cut_join rfl rfl fun x hx d hd => (of_isTokenChar ((h x hx).2 d hd)).1, filter_eq_self.mpr]
    · simp [Function.comp_def]
    · intro l hl
      obtain ⟨x, hx, rfl⟩ := mem_map.mp hl
      simpa using (h x hx).1

theorem words_indent {l : List Char} (h : ∀ c ∈ l, isBlank c = true) (s : String) : words (String.ofList l ++ s) = words s := by
  unfold words
  rw [String.toList_append, String.toList_ofList]
  induction l with
  | nil => rfl
  | cons c l ih =>
    obtain ⟨hc, hl⟩ := forall_mem_cons.mp h
    rw [cons_append, ← nil_append (c :: _), cut_append hc, ← ih hl]
    rfl

/-! ### Lines -/

theorem splitFirst_of_not_mem {m : Char} {mark : List Char} : ∀ {cs seen : List Char}, m ∉ cs →
    splitFirst (m :: mark) seen cs = (seen.reverse ++ cs, none)
  | [], seen, _ => by simp [splitFirst]
  | c :: cs, seen, h => by
    rw [mem_cons, not_or] at h
    rw [splitFirst, if_neg (by simp [List.isPrefixOf, h.1]), splitFirst_of_not_mem h.2]
    simp

theorem foldl_lineStep (h : '\r' ∉ cs) (state : List Char × List (List Char)) :
    cs.foldl lineStep (false, state) = (false, cs.foldl (cutStep isLineBreak) state) := by
  induction cs generalizing state with
  | nil => rfl
  | cons c cs ih =>
    rw [mem_cons, not_or] at h
    have hstep : lineStep (false, state) c = (false, cutStep isLineBreak state c) := by
      have hc : (c == '\r') = false := beq_eq_false_iff_ne.mpr (Ne.symm h.1)
      simp only [lineStep, cutStep, hc, Bool.false_and, Bool.false_eq_true, if_false]
      split <;> rfl
    rw [foldl_cons, foldl_cons, hstep, ih h.2]

/-- A line that can be told from its neighbours. -/
def IsLine (l : String) : Prop := l.toList ≠ [] ∧ ∀ c ∈ l.toList, isLineBreak c = false

theorem lines_join {ls : List String} (h : ∀ l ∈ ls, IsLine l) : lines (join "\n" ls) = ls := by
  cases ls with
  | nil => rfl
  | cons l ls =>
    have hcut : cut isLineBreak (join "\n" (l :: ls)).toList = (l :: ls).map String.toList :=
      cut_join rfl rfl fun x hx => (h x hx).2
    have hreturn : '\r' ∉ (join "\n" (l :: ls)).toList := by
      intro hr
      rcases mem_join hr with hr | ⟨x, hx, hr⟩
      · simp at hr
      · exact absurd ((h x hx).2 _ hr) (by decide)
    unfold lines
    rw [foldl_lineStep hreturn]
    unfold cut at hcut
    dsimp only at hcut ⊢
    generalize foldl (cutStep isLineBreak) ([], []) (join "\n" (l :: ls)).toList = state at hcut ⊢
    rw [if_neg, hcut]
    · simp [Function.comp_def]
    · obtain ⟨x, hx, heq⟩ : ∃ x ∈ l :: ls, x.toList = state.1.reverse := by
        rw [← mem_map, ← hcut]
        simp
      have := (h x hx).1
      simpa [heq] using this

end Text

open Text

namespace Number

variable {b n : Nat} {c : Char} {cs : List Char}

/-! ### Digits -/

theorem exists_digit_of_mem (hb : 1 < b) (h : c ∈ Nat.toDigits b n) : ∃ d < b, c = d.digitChar := by
  induction n using Nat.strong_induction_on with
  | _ n ih =>
    rw [Nat.toDigits_eq_if hb] at h
    split at h
    next hn => exact ⟨n, hn, by simpa using h⟩
    next hn =>
      rcases mem_append.mp h with h | h
      · exact ih _ (Nat.div_lt_self (by omega) hb) h
      · exact ⟨n % b, Nat.mod_lt n (by omega), by simpa using h⟩

theorem digitChar_facts : ∀ d < 16, hexDigit? d.digitChar = some d ∧
    isTokenChar d.digitChar = true ∧ d.digitChar ≠ '_' ∧ d.digitChar ≠ '-' ∧ d.digitChar ≠ '+' := by
  decide

theorem readDigits_cons {d m : Nat} (hd : d < b) (hb : b ≤ 16) (before : Bool) (rest : List Char) :
    readDigits b before m (d.digitChar :: rest) = readDigits b true (m * b + d) rest := by
  obtain ⟨hval, -, hne, -⟩ := digitChar_facts d (by omega)
  rw [readDigits, if_neg (by simp [hne]), hval]
  exact if_pos hd

theorem readDigits_toDigits (hb : 1 < b) (hb' : b ≤ 16) (before : Bool) (rest : List Char) :
    readDigits b before 0 (Nat.toDigits b n ++ rest) = readDigits b true n rest := by
  induction n using Nat.strong_induction_on generalizing rest with
  | _ n ih =>
    rw [Nat.toDigits_eq_if hb]
    split
    next hn => rw [singleton_append, readDigits_cons hn hb', Nat.zero_mul, Nat.zero_add]
    next hn =>
      rw [append_assoc, ih _ (Nat.div_lt_self (by omega) hb), singleton_append,
        readDigits_cons (Nat.mod_lt n (by omega)) hb', Nat.div_add_mod']

/-- Numbers do not begin with a zero that could be left out. -/
theorem toDigits_ne_zero_cons (m : Char) (rest : List Char) : Nat.toDigits 10 n ≠ '0' :: m :: rest := by
  induction n using Nat.strong_induction_on generalizing m rest with
  | _ n ih =>
    rw [Nat.toDigits_eq_if (by decide)]
    split
    · simp
    next hn =>
      intro h
      cases hd : Nat.toDigits 10 (n / 10) with
      | nil => exact Nat.toDigits_ne_nil hd
      | cons c cs =>
        rw [hd] at h
        obtain rfl : c = '0' := by simpa using congrArg head? h
        cases cs with
        | cons c cs => exact ih _ (by omega) c cs hd
        | nil =>
          have hlt : n / 10 < 10 ^ 1 := (Nat.length_toDigits_le_iff (by decide) (by decide)).mp (by simp [hd])
          rw [Nat.toDigits_of_lt_base (by omega)] at hd
          simp only [cons.injEq, Nat.digitChar_eq_zero, and_true] at hd
          omega

theorem readMagnitude_decimal (h : n < 10 ^ digitLimit) : readMagnitude (Nat.toDigits 10 n) = some n := by
  have hdec : readDecimal (Nat.toDigits 10 n) = some n := by
    have hlen := (Nat.length_toDigits_le_iff (by decide) (by decide)).mpr h
    have := readDigits_toDigits (n := n) (b := 10) (by decide) (by decide) false []
    rw [append_nil] at this
    rw [readDecimal, if_neg (by have := countP_le_length (p := Char.isDigit) (l := Nat.toDigits 10 n); omega), this]
    rfl
  unfold readMagnitude
  split
  next m rest heq => exact absurd heq (toDigits_ne_zero_cons m rest)
  next => exact hdec

theorem readMagnitude_hex (n : Nat) : readMagnitude ('0' :: 'x' :: Nat.toDigits 16 n) = some n := by
  have := readDigits_toDigits (n := n) (b := 16) (by decide) (by decide) false []
  rw [append_nil] at this
  show readMarked 16 _ = _
  unfold readMarked
  split
  next cs heq =>
    obtain ⟨d, hd, h⟩ := exists_digit_of_mem (by decide) (heq ▸ mem_cons_self)
    exact absurd h.symm (digitChar_facts d hd).2.2.1
  next => exact this

/-- Visible characters are read as they stand. -/
theorem body_eq (h : ∀ c ∈ cs, isTokenChar c = true) : body (String.ofList cs) = cs := by
  have hmargin : ∀ c ∈ cs, isMargin c = false := fun c hc => by simp [isMargin, (of_isTokenChar (h c hc)).1]
  have hstrip : ∀ {l : List Char}, (∀ c ∈ l, c ∈ cs) → l.dropWhile isMargin = l := by
    intro l hl
    rw [dropWhile_eq_self_iff]
    intro hpos
    simp [hmargin _ (hl _ (getElem_mem hpos))]
  unfold body stripBy
  rw [String.toList_ofList, hstrip fun _ hc => hc, hstrip (by simp), reverse_reverse]
  refine plainDigits_of_ascii fun c hc => ?_
  have hc := h c hc
  simp only [isTokenChar, Bool.and_eq_true, decide_eq_true_eq] at hc
  omega

end Number

end ScoreWasm
