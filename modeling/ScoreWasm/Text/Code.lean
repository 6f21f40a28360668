/-!
# Code points

Text is a sequence of code points, and half of a surrogate pair is one: text that comes from JSON may hold
one half without the other.  A `String` holds characters, and a half is none.  So a text is kept in a
string by a code in which every character stands for itself, but for a block of characters that are
assigned to nothing.  A half is coded by a mark and a character of that block, the tail, which says which
half it is; a character of the block is coded by another mark and itself.  A mark begins every such pair
and a tail ends it, so pairs are found wherever a text is cut, and equal texts have equal codes.

The main statement is `codes_ofCodes`: the code points of a coded text are those it was made of.
-/

namespace ScoreWasm

/-- Lists are compared as in the core library, element by element, wherever a module stands. -/
instance (priority := 20000) listOrder {α : Type} [LT α] : LE (List α) := List.instLE

instance (priority := 20000) listOrderDecidable {α : Type} [DecidableEq α] [LT α] [DecidableLT α]
    (l k : List α) : Decidable (l ≤ k) :=
  List.decidableLE l k

end ScoreWasm

namespace ScoreWasm.Text

def isHalf (n : Nat) : Bool := 0xd800 ≤ n && n < 0xe000

def tailStart : Nat := 0xdd800

def halfCount : Nat := 0x800

/-- How many tails there are: one for each half and one for each mark. -/
def tailCount : Nat := halfCount + 2

def halfMark : Nat := tailStart + tailCount

def tailMark : Nat := halfMark + 1

def isTail (n : Nat) : Bool := tailStart ≤ n && n < halfMark

def isMark (n : Nat) : Bool := n == halfMark || n == tailMark

def ofCode (n : Nat) : List Char :=
  if isHalf n then [Char.ofNat halfMark, Char.ofNat (tailStart + (n - 0xd800))]
  else if isTail n then [Char.ofNat tailMark, Char.ofNat n]
  else if isMark n then [Char.ofNat halfMark, Char.ofNat (tailStart + halfCount + (n - halfMark))]
  else [Char.ofNat n]

def pairCode? (m t : Nat) : Option Nat :=
  if !isTail t then none
  else if m == tailMark then some t
  else if m == halfMark then
    some (if t < tailStart + halfCount then 0xd800 + (t - tailStart)
      else halfMark + (t - tailStart - halfCount))
  else none

def codesOf : List Char → List Nat
  | m :: t :: rest =>
    match pairCode? m.toNat t.toNat with
    | some n => n :: codesOf rest
    | none => m.toNat :: codesOf (t :: rest)
  | [c] => [c.toNat]
  | [] => []

def ofCodes (codes : List Nat) : String := String.ofList (codes.flatMap ofCode)

/-- The code points of a text.  Without a mark there are no pairs to look for. -/
def codes (s : String) : List Nat :=
  if s.toList.any (fun c => isMark c.toNat) then codesOf s.toList else s.toList.map Char.toNat

/-! ### Reading back -/

theorem codesOf_eq_map {cs : List Char} (h : ∀ c ∈ cs, isMark c.toNat = false) :
    codesOf cs = cs.map Char.toNat := by
  fun_induction codesOf cs with
  | case1 m t rest n hn =>
    have hm : isMark m.toNat = false := h m (by simp)
    simp only [isMark, Bool.or_eq_false_iff] at hm
    simp [pairCode?, hm.1, hm.2] at hn
  | case2 m t rest hn ih =>
    rw [ih (fun c hc => h c (List.mem_cons_of_mem _ hc))]
    rfl
  | case3 c => rfl
  | case4 => rfl

theorem codes_eq_codesOf (s : String) : codes s = codesOf s.toList := by
  unfold codes
  split
  · rfl
  next h =>
    rw [codesOf_eq_map]
    intro c hc
    simp only [Bool.not_eq_true, List.any_eq_false] at h
    simpa using h c hc

theorem toNat_ofNat_of_isHalf {n : Nat} (hn : n < 0x110000) (h : isHalf n = false) :
    (Char.ofNat n).toNat = n := by
  have hv : n.isValidChar := by
    simp only [isHalf, Bool.and_eq_false_iff, decide_eq_false_iff_not] at h
    simp only [Nat.isValidChar]
    omega
  rw [Char.ofNat, dif_pos hv]
  rfl

theorem toNat_ofNat_of_tail {n : Nat} (lo : tailStart ≤ n) (hi : n ≤ tailMark) :
    (Char.ofNat n).toNat = n := by
  simp only [tailMark, halfMark, tailStart, tailCount, halfCount] at lo hi
  exact toNat_ofNat_of_isHalf (by omega) (by simp [isHalf]; omega)

/-- A pair is read back whatever follows it. -/
theorem codesOf_pair {m t n : Nat} (hm : isMark m) (ht : isTail t) (h : pairCode? m t = some n)
    (rest : List Char) : codesOf (Char.ofNat m :: Char.ofNat t :: rest) = n :: codesOf rest := by
  have hm' : (Char.ofNat m).toNat = m := by
    simp only [isMark, Bool.or_eq_true, beq_iff_eq] at hm
    exact toNat_ofNat_of_tail (by simp only [tailMark, halfMark] at hm; omega)
      (by simp only [tailMark] at hm ⊢; omega)
  have ht' : (Char.ofNat t).toNat = t := by
    simp only [isTail, Bool.and_eq_true, decide_eq_true_eq] at ht
    exact toNat_ofNat_of_tail ht.1 (by simp only [tailMark]; omega)
  simp only [codesOf, hm', ht', h]

/-- A character that is no mark is read back whatever follows it. -/
theorem codesOf_single {c : Char} (h : isMark c.toNat = false) (rest : List Char) :
    codesOf (c :: rest) = c.toNat :: codesOf rest := by
  cases rest with
  | nil => rfl
  | cons t rest =>
    simp only [isMark, Bool.or_eq_false_iff] at h
    simp [codesOf, pairCode?, h.1, h.2]

theorem pairCode?_tailMark {t : Nat} (ht : isTail t) : pairCode? tailMark t = some t := by
  simp [pairCode?, ht]

theorem pairCode?_halfMark {t : Nat} (ht : isTail t) :
    pairCode? halfMark t = some (if t < tailStart + halfCount then 0xd800 + (t - tailStart)
      else halfMark + (t - tailStart - halfCount)) := by
  simp [pairCode?, ht, tailMark]

theorem isTail_add {i : Nat} (h : i < tailCount) : isTail (tailStart + i) := by
  have hi : tailStart + i < halfMark := Nat.add_lt_add_left h _
  simp [isTail, hi]

theorem codesOf_ofCode_append {n : Nat} (hn : n < 0x110000) (rest : List Char) :
    codesOf (ofCode n ++ rest) = n :: codesOf rest := by
  have halfMark_isMark : isMark halfMark := by simp [isMark]
  unfold ofCode
  split
  next h =>
    simp only [isHalf, Bool.and_eq_true, decide_eq_true_eq] at h
    have hi : n - 0xd800 < halfCount := by simp only [halfCount]; omega
    have ht := isTail_add (Nat.lt_add_right 2 hi)
    refine codesOf_pair halfMark_isMark ht ?_ rest
    rw [pairCode?_halfMark ht, if_pos (by omega), Option.some.injEq]
    omega
  next h =>
    split
    next ht => exact codesOf_pair (by simp [isMark]) ht (pairCode?_tailMark ht) rest
    next ht =>
      split
      next hm =>
        simp only [isMark, tailMark, Bool.or_eq_true, beq_iff_eq] at hm
        have ht := isTail_add (i := halfCount + (n - halfMark)) (by simp only [tailCount]; omega)
        rw [← Nat.add_assoc] at ht
        refine codesOf_pair halfMark_isMark ht ?_ rest
        rw [pairCode?_halfMark ht, if_neg (by omega), Option.some.injEq]
        omega
      next hm =>
        have hc := toNat_ofNat_of_isHalf hn (by simpa using h)
        rw [List.singleton_append, codesOf_single (by simpa [hc] using hm), hc]

/-- The code points of a coded text are those it was made of. -/
theorem codes_ofCodes {l : List Nat} (h : ∀ n ∈ l, n < 0x110000) : codes (ofCodes l) = l := by
  rw [codes_eq_codesOf, ofCodes, String.toList_ofList]
  induction l with
  | nil => rfl
  | cons n l ih =>
    rw [List.flatMap_cons, codesOf_ofCode_append (h n (by simp)),
      ih (fun m hm => h m (List.mem_cons_of_mem _ hm))]

/-! ### Measures and parts -/

/-- The text of characters that all mean themselves; most are written that way. -/
def coded (s : String) : String :=
  if s.toList.any (fun c => isTail c.toNat || isMark c.toNat) then ofCodes (s.toList.map Char.toNat) else s

/-- A text in characters that all mean themselves, with a question mark for every half. -/
def plain (s : String) : String :=
  String.ofList ((codes s).map (fun n => if isHalf n then '?' else Char.ofNat n))

def size (s : String) : Nat := (codes s).length

/-- The first `n` code points of a text. -/
def take (n : Nat) (s : String) : String := ofCodes ((codes s).take n)

def singles (s : String) : List String := (codes s).map (fun n => ofCodes [n])

/-- Puts things into the order of their texts, which is that of the code points. -/
def sortBy {α : Type} (key : α → String) (l : List α) : List α :=
  ((l.map (fun x => (codes (key x), x))).mergeSort (fun a b => decide (a.1 ≤ b.1))).map Prod.snd

end ScoreWasm.Text
