import ScoreWasm.Proofs.Text.Whole

/-!
# Texts and their bytes

A whole text has bytes, and decoding gives the text back; bytes that can be decoded are those of the text
that they are decoded to.  So whole texts and well-formed bytes are in one-to-one correspondence.
-/

namespace ScoreWasm.Text

open List UInt8
open String hiding length_append

variable {n size : Nat} {l done : List Nat} {a b : UInt8} {tail bs rest : List UInt8}

/-- A code point that has bytes. -/
def IsScalar (n : Nat) : Prop := isHalf n = false ∧ n < 0x110000

/-- The bytes of a code point. -/
def codeBytes (n : Nat) : List UInt8 := utf8EncodeChar (Char.ofNat n)

/-! ### Encoding -/

theorem byteArray_toList_loop (bs : ByteArray) (i : Nat) (acc : List UInt8) :
    ByteArray.toList.loop bs i acc = acc.reverse ++ bs.data.toList.drop i := by
  fun_induction ByteArray.toList.loop bs i acc with
  | case1 i acc hlt ih =>
    have hlen : i < bs.data.toList.length := hlt
    have hget : bs.get! i = bs.data.toList[i] := by
      show bs.data[i]! = _
      rw [getElem!_pos bs.data i hlt, Array.getElem_toList]
    rw [ih, drop_eq_getElem_cons hlen, hget]
    simp
  | case2 i acc hge =>
    have hlen : bs.data.toList.length ≤ i := Nat.le_of_not_lt hge
    rw [drop_eq_nil_of_le hlen, append_nil]

theorem byteArray_toList (bs : ByteArray) : bs.toList = bs.data.toList := by
  rw [ByteArray.toList, byteArray_toList_loop]
  simp

theorem toUTF8_toList (cs : List Char) : (ofList cs).toUTF8.toList = cs.flatMap utf8EncodeChar := by
  rw [byteArray_toList, toUTF8, toByteArray_ofList, List.utf8Encode, toList_data_toByteArray]

/-- Without a mark, the characters of a coded text are its code points. -/
theorem ofCode_of_noMark (h : ∀ c ∈ ofCode n, isMark c.toNat = false) : ofCode n = [Char.ofNat n] := by
  have hhalf : isMark (Char.ofNat halfMark).toNat = true := by decide
  have htail : isMark (Char.ofNat tailMark).toNat = true := by decide
  unfold ofCode at h ⊢
  split
  next hn => simp [hn, hhalf] at h
  next hn =>
    split
    next ht => simp [hn, ht, htail] at h
    next ht =>
      split
      next hm => simp [hn, ht, hm, hhalf] at h
      next => rfl

theorem flatMap_ofCode_of_noMark (h : ∀ c ∈ l.flatMap ofCode, isMark c.toNat = false) :
    l.flatMap ofCode = l.map Char.ofNat := by
  induction l with
  | nil => rfl
  | cons n l ih =>
    rw [flatMap_cons] at h ⊢
    rw [ofCode_of_noMark (fun c hc => h c (mem_append_left _ hc)), ih (fun c hc => h c (mem_append_right _ hc))]
    rfl

/-- The bytes of a text are those of its code points. -/
theorem utf8_ofCodes (h : ∀ n ∈ l, IsScalar n) : utf8 (ofCodes l) = .ok (l.flatMap codeBytes) := by
  have hmap : (l.map Char.ofNat).flatMap utf8EncodeChar = l.flatMap codeBytes := by
    rw [flatMap_map]
    rfl
  have hbytes : (ofList (l.map Char.ofNat)).toUTF8.toList = l.flatMap codeBytes :=
    (toUTF8_toList _).trans hmap
  unfold utf8 utf8Array
  split
  · rw [codes_ofCodes (fun n hn => (h n hn).2), unencodable?_eq_none (fun n hn => (h n hn).1)]
    exact congrArg Except.ok hbytes
  next hmark =>
    have hno : ∀ c ∈ l.flatMap ofCode, isMark c.toNat = false := by
      intro c hc
      rw [String.any, contains_bool_eq, ofCodes, toList_ofList] at hmark
      simpa using any_eq_false.mp (eq_false_of_ne_true hmark) c hc
    rw [ofCodes, flatMap_ofCode_of_noMark hno]
    exact congrArg Except.ok hbytes

/-! ### Decoding -/

theorem isContinuation_iff : isContinuation b = true ↔ 128 ≤ b.toNat ∧ b.toNat < 192 := by
  simp only [isContinuation, Bool.and_eq_true, decide_eq_true_eq, le_iff_toNat_le, lt_iff_toNat_lt,
    reduceToNat]

/-- A first byte with the bytes behind it that it asks for is the encoding of a code point. -/
theorem codeBytes_codePoint (hsize : characterSize a = tail.length + 1)
    (hfit : fitting a tail = tail.length) : codeBytes (codePoint a tail) = a :: tail := by
  obtain ⟨hhalf, hlt⟩ := codePoint_whole hsize hfit
  have hnat : (Char.ofNat (codePoint a tail)).val.toNat = codePoint a tail := by
    refine toNat_ofNat_of_isHalf hlt ?_
    simp only [isHalf, Bool.and_eq_false_iff, decide_eq_false_iff_not]
    omega
  have hfit := fitting_eq_length_iff.mp hfit
  have ha := characterSize_toNat hsize
  have hbyte : ∀ {x : Nat} {b : UInt8}, x = b.toNat → ofNat x = b := by
    rintro x b rfl
    exact UInt8.ofNat_toNat
  have ha' := a.toNat_lt
  unfold codeBytes utf8EncodeChar
  simp only [hnat]
  rcases tail with _ | ⟨b, _ | ⟨c, _ | ⟨d, _ | ⟨e, rest⟩⟩⟩⟩
  · simp only [codePoint, length_nil, foldl_nil] at ha ⊢
    rw [if_pos (by omega), hbyte rfl]
  · obtain ⟨hb, -⟩ := hfit b [] rfl
    rw [mayFollow_iff] at hb
    simp only [codePoint, length_cons, length_nil, foldl_cons, foldl_nil] at ha ⊢
    rw [if_neg (by omega), if_pos (by omega), hbyte (b := a) (by omega), hbyte (b := b) (by omega)]
  · obtain ⟨hb, hbs⟩ := hfit b [c] rfl
    have hc := isContinuation_iff.mp (hbs c (by simp))
    rw [mayFollow_iff] at hb
    simp only [codePoint, length_cons, length_nil, foldl_cons, foldl_nil] at ha ⊢
    rw [if_neg (by omega), if_neg (by omega), if_pos (by omega), hbyte (b := a) (by omega),
      hbyte (b := b) (by omega), hbyte (b := c) (by omega)]
  · obtain ⟨hb, hbs⟩ := hfit b [c, d] rfl
    have hc := isContinuation_iff.mp (hbs c (by simp))
    have hd := isContinuation_iff.mp (hbs d (by simp))
    rw [mayFollow_iff] at hb
    simp only [codePoint, length_cons, length_nil, foldl_cons, foldl_nil] at ha ⊢
    rw [if_neg (by omega), if_neg (by omega), if_neg (by omega), hbyte (b := a) (by omega),
      hbyte (b := b) (by omega), hbyte (b := c) (by omega), hbyte (b := d) (by omega)]
  · simp only [length_cons] at ha
    omega

/-- The bytes of a code point are a first byte with the bytes behind it that it asks for. -/
theorem codeBytes_eq_cons (h : IsScalar n) : ∃ a tail, codeBytes n = a :: tail ∧
    characterSize a = tail.length + 1 ∧ fitting a tail = tail.length ∧ codePoint a tail = n := by
  obtain ⟨hhalf, hlt⟩ := h
  have hnat : (Char.ofNat n).val.toNat = n := toNat_ofNat_of_isHalf hlt hhalf
  simp only [isHalf, Bool.and_eq_false_iff, decide_eq_false_iff_not] at hhalf
  have hbyte : ∀ {x : Nat}, x < 256 → (ofNat x).toNat = x := fun hx => toNat_ofNat_of_lt' hx
  have hsize : ∀ {x : Nat}, x < 256 → characterSize (ofNat x) = if x < 0x80 then 1 else if x < 0xc2 then 0
      else if x < 0xe0 then 2 else if x < 0xf0 then 3 else if x < 0xf5 then 4 else 0 := by
    intro x hx
    simp only [characterSize, lt_iff_toNat_lt, reduceToNat, hbyte hx]
  unfold codeBytes utf8EncodeChar
  simp only [hnat]
  split
  · refine ⟨_, _, rfl, ?_, rfl, ?_⟩
    · rw [hsize (by omega), if_pos (by omega)]
      rfl
    · simp only [codePoint, length_nil, foldl_nil]
      exact hbyte (by omega)
  split
  · refine ⟨_, _, rfl, ?_, ?_, ?_⟩
    · rw [hsize (by omega), if_neg (by omega), if_neg (by omega), if_pos (by omega)]
      rfl
    · rw [fitting_eq_length_iff]
      rintro b bs ⟨⟩
      simp (disch := omega) only [mayFollow_iff, hbyte]
      refine ⟨by omega, by simp⟩
    · simp (disch := omega) only [codePoint, length_cons, length_nil, foldl_cons, foldl_nil, hbyte]
      omega
  split
  · refine ⟨_, _, rfl, ?_, ?_, ?_⟩
    · rw [hsize (by omega), if_neg (by omega), if_neg (by omega), if_neg (by omega), if_pos (by omega)]
      rfl
    · rw [fitting_eq_length_iff]
      rintro b bs ⟨⟩
      simp (disch := omega) only [mayFollow_iff, isContinuation_iff, mem_singleton, forall_eq, hbyte]
      omega
    · simp (disch := omega) only [codePoint, length_cons, length_nil, foldl_cons, foldl_nil, hbyte]
      omega
  · refine ⟨_, _, rfl, ?_, ?_, ?_⟩
    · rw [hsize (by omega), if_neg (by omega), if_neg (by omega), if_neg (by omega),
        if_neg (by omega), if_pos (by omega)]
      rfl
    · rw [fitting_eq_length_iff]
      rintro b bs ⟨⟩
      simp (disch := omega) only [mayFollow_iff, isContinuation_iff, mem_cons, not_mem_nil,
        or_false, forall_eq_or_imp, forall_eq, hbyte]
      omega
    · simp (disch := omega) only [codePoint, length_cons, length_nil, foldl_cons, foldl_nil, hbyte]
      omega

theorem decodeCode_append (hsize : characterSize a = tail.length + 1) (hfit : fitting a tail = tail.length)
    (rest : List UInt8) : decodeCode a (tail ++ rest) = .ok (codePoint a tail, tail.length + 1) := by
  unfold decodeCode
  rw [hsize]
  simp [hfit]

/-- Code points are read back from their bytes. -/
theorem decodeFrom_codeBytes {l : List Nat} (h : ∀ n ∈ l, IsScalar n) {fuel : Nat} (position : Nat)
    (done : List Nat) (hfuel : l.length ≤ fuel) :
    decodeFrom fuel position done (l.flatMap codeBytes) = .ok (done.reverse ++ l) := by
  induction l generalizing fuel position done with
  | nil => cases fuel <;> simp [decodeFrom]
  | cons n l ih =>
    obtain ⟨a, tail, hcode, hsize, hfit, hpoint⟩ := codeBytes_eq_cons (h n mem_cons_self)
    rw [length_cons] at hfuel
    obtain ⟨fuel, rfl⟩ : ∃ k, fuel = k + 1 := ⟨fuel - 1, by omega⟩
    rw [flatMap_cons, hcode, cons_append, decodeFrom, decodeCode_append hsize hfit, hpoint]
    simp only [Nat.add_sub_cancel, drop_left]
    rw [ih (fun k hk => h k (mem_cons_of_mem n hk)) _ _ (by omega)]
    simp

theorem length_le_flatMap_codeBytes (l : List Nat) : l.length ≤ (l.flatMap codeBytes).length := by
  induction l with
  | nil => exact Nat.le_refl 0
  | cons n l ih =>
    have hpos : 0 < (codeBytes n).length := length_pos_iff.mpr utf8EncodeChar_ne_nil
    rw [flatMap_cons, length_append, length_cons]
    omega

/-- **A text is read back from its bytes.** -/
theorem decodeUtf8_codeBytes (h : ∀ n ∈ l, IsScalar n) : decodeUtf8 (l.flatMap codeBytes) = .ok (ofCodes l) := by
  unfold decodeUtf8
  rw [decodeFrom_codeBytes h 0 [] (length_le_flatMap_codeBytes l)]
  rfl

/-- A code point that was decoded has the bytes it was decoded from. -/
theorem codeBytes_of_decodeCode (h : decodeCode a rest = .ok (n, size)) :
    a :: rest = codeBytes n ++ rest.drop (size - 1) := by
  obtain ⟨tail, hrest, rfl, hsize, hfit⟩ := decodeCode_eq_ok h
  rw [codeBytes_codePoint hsize hfit, cons_append, ← hrest]

theorem codeBytes_of_decodeFrom {fuel position : Nat}
    (h : decodeFrom fuel position done bs = .ok l) :
    ∃ new, l = done.reverse ++ new ∧ bs = new.flatMap codeBytes ∧ ∀ n ∈ new, IsScalar n := by
  induction fuel generalizing position done bs l with
  | zero =>
    cases bs with
    | nil =>
      cases h
      exact ⟨[], by simp⟩
    | cons a rest => cases h
  | succ fuel ih =>
    cases bs with
    | nil =>
      cases h
      exact ⟨[], by simp⟩
    | cons a rest =>
      unfold decodeFrom at h
      cases hc : decodeCode a rest with
      | error e =>
        rw [hc] at h
        cases h
      | ok p =>
        obtain ⟨n, size⟩ := p
        rw [hc] at h
        obtain ⟨new, rfl, hbytes, hnew⟩ := ih h
        refine ⟨n :: new, by simp, ?_, forall_mem_cons.mpr ⟨decodeCode_whole hc, hnew⟩⟩
        rw [codeBytes_of_decodeCode hc, hbytes, flatMap_cons]

/-- **Bytes that were decoded are those of the text.** -/
theorem exists_codes_of_decodeUtf8 {s : String} (h : decodeUtf8 bs = .ok s) :
    ∃ l, (∀ n ∈ l, IsScalar n) ∧ s = ofCodes l ∧ bs = l.flatMap codeBytes := by
  unfold decodeUtf8 at h
  cases hl : decodeFrom bs.length 0 [] bs with
  | error e =>
    rw [hl] at h
    cases h
  | ok l =>
    rw [hl] at h
    cases h
    obtain ⟨new, heq, hbytes, hnew⟩ := codeBytes_of_decodeFrom hl
    exact ⟨new, hnew, congrArg ofCodes heq, hbytes⟩

end ScoreWasm.Text
