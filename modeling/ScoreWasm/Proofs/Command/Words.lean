import Mathlib.Data.List.TakeWhile
import ScoreWasm.Command.Parse

/-!
# Words of a line

A line is cut at its blanks, so that words without blanks come back from a line that was joined from them
(`splitOn_sentence`).  Words that name a place of a list of lists are read as the path to it
(`parsePath_pages`).
-/

namespace ScoreWasm

open List
open String hiding append_assoc

variable {n fuel : Nat} {t text : String}

namespace Text

variable {c : Char} {s : String} {sep : Char → Bool} {cs : List Char}

/-! ### Cutting -/

/-- The character is not in the text. -/
def Lacks (c : Char) (s : String) : Prop := c ∉ s.toList

instance (c : Char) (s : String) : Decidable (Lacks c s) := inferInstanceAs (Decidable (c ∉ s.toList))

theorem Lacks.append (hs : Lacks c s) (ht : Lacks c t) : Lacks c (s ++ t) := by
  unfold Lacks
  rw [toList_append, mem_append, not_or]
  exact ⟨hs, ht⟩

theorem foldl_cutStep_of_lacks (h : ∀ c ∈ cs, sep c = false) (current : List Char) (done : List (List Char)) :
    cs.foldl (cutStep sep) (current, done) = (cs.reverse ++ current, done) := by
  induction cs generalizing current with
  | nil => rfl
  | cons c cs ih =>
    rw [foldl_cons, cutStep, if_neg (by simp [h c (.head _)]),
      ih fun d hd => h d (.tail _ hd), reverse_cons, append_assoc]
    rfl

theorem foldl_cutStep_done (sep : Char → Bool) (cs current : List Char) (done : List (List Char)) :
    cs.foldl (cutStep sep) (current, done)
      = ((cs.foldl (cutStep sep) (current, [])).1, (cs.foldl (cutStep sep) (current, [])).2 ++ done) := by
  induction cs generalizing current done with
  | nil => rfl
  | cons c cs ih =>
    rw [foldl_cons, foldl_cons, cutStep, cutStep]
    by_cases hc : sep c = true
    · simp only [hc, if_true]
      rw [ih [] (current.reverse :: done), ih [] [current.reverse], append_assoc]
      rfl
    · simp only [hc, Bool.false_eq_true, if_false]
      exact ih (c :: current) done

theorem cut_of_lacks (h : ∀ c ∈ cs, sep c = false) : cut sep cs = [cs] := by
  unfold cut
  rw [foldl_cutStep_of_lacks h]
  simp

theorem cut_append (hc : sep c = true) (as bs : List Char) : cut sep (as ++ c :: bs) = cut sep as ++ cut sep bs := by
  unfold cut
  rw [foldl_append, foldl_cons, cutStep, if_pos hc, foldl_cutStep_done]
  simp

theorem beq_of_lacks (h : Lacks c s) : ∀ d ∈ s.toList, (d == c) = false := by
  intro d hd
  rw [beq_eq_false_iff_ne]
  rintro rfl
  exact h hd

theorem splitOn_word (h : Lacks c s) : splitOn c s = [s] := by
  unfold splitOn
  rw [cut_of_lacks (beq_of_lacks h)]
  simp

theorem splitOn_append (s t : String) : splitOn ' ' (s ++ (" " ++ t)) = splitOn ' ' s ++ splitOn ' ' t := by
  unfold splitOn
  rw [← map_append, ← cut_append (c := ' ') (by simp)]
  simp

theorem join_cons (t w w' : String) (ws : List String) : join t (w :: w' :: ws) = w ++ (t ++ join t (w' :: ws)) := by
  show ws.foldl _ (w ++ t ++ w') = w ++ (t ++ ws.foldl _ w')
  rw [String.append_assoc]
  induction ws generalizing w' with
  | nil => rfl
  | cons x ws ih => simpa only [foldl_cons, String.append_assoc] using ih (w' ++ (t ++ x))

/-- Texts that were joined with a separator come apart again. -/
theorem cut_join {w : String} {ws : List String} (ht : t.toList = [c]) (hc : sep c = true)
    (h : ∀ x ∈ w :: ws, ∀ d ∈ x.toList, sep d = false) :
    cut sep (join t (w :: ws)).toList = (w :: ws).map toList := by
  induction ws generalizing w with
  | nil => exact cut_of_lacks (h w mem_cons_self)
  | cons w' ws ih =>
    obtain ⟨hw, hws⟩ := forall_mem_cons.mp h
    rw [join_cons, toList_append, toList_append, ht, singleton_append, cut_append hc, cut_of_lacks hw, ih hws]
    rfl

theorem splitOn_sentence {w : String} {ws : List String} (hw : Lacks ' ' w)
    (hws : ∀ t ∈ ws, Lacks ' ' t) : splitOn ' ' (sentence (w :: ws)) = w :: ws := by
  have hcut : cut (· == ' ') (sentence (w :: ws)).toList = (w :: ws).map toList :=
    cut_join rfl rfl fun x hx => beq_of_lacks (forall_mem_cons.mpr ⟨hw, hws⟩ x hx)
  unfold splitOn
  rw [hcut]
  simp

/-! ### Digits -/

theorem digitValue?_of_isDigit (h : c.isDigit = true) : digitValue? c = some (c.toNat - 48) := by
  have hc : 48 ≤ c.toNat ∧ c.toNat ≤ 57 := by
    rw [Char.isDigit, Bool.and_eq_true, decide_eq_true_eq, decide_eq_true_eq] at h
    exact ⟨h.1, h.2⟩
  unfold digitValue?
  rw [if_pos (by omega), if_pos (by simp; omega)]

/-- The digits of a number. -/
def decimal (n : Nat) : List Char := Nat.toDigits 10 n

theorem toString_eq_decimal (n : Nat) : toString (n : Int) = ofList (decimal n) := by
  exact Nat.toString_eq_ofList_toDigits

theorem isDigit_of_mem_decimal (h : c ∈ decimal n) : c.isDigit = true :=
  Nat.isDigit_of_mem_toDigits (by decide) (by decide) h

theorem decimal_ne_nil (n : Nat) : decimal n ≠ [] := Nat.toDigits_ne_nil

theorem digitsValue_decimal (n : Nat) : Number.digitsValue (decimal n) = n := by
  have h := Nat.ofDigitChars_toDigits (b := 10) (n := n) (by decide) (by decide)
  rw [Nat.ofDigitChars_eq_foldl] at h
  simp only [Nat.mul_comm] at h
  exact h

/-- Only digits of other scripts are replaced. -/
theorem plainDigits_of_ascii (h : ∀ c ∈ cs, c.toNat < 128) : Number.plainDigits cs = cs := by
  refine (map_congr_left fun c hc => ?_).trans (map_id cs)
  unfold digitValue?
  simp only [h c hc, if_true, id]
  split
  next d heq =>
    split at heq
    next hd =>
      simp only [Bool.and_eq_true, decide_eq_true_eq] at hd
      obtain rfl : _ = d := by simpa using heq
      rw [Nat.add_sub_cancel' hd.1, Char.ofNat_toNat]
    next => cases heq
  next => rfl

theorem plainDigits_of_isDigit (h : ∀ c ∈ cs, c.isDigit = true) : Number.plainDigits cs = cs := by
  refine plainDigits_of_ascii fun c hc => ?_
  have hd := h c hc
  rw [Char.isDigit, Bool.and_eq_true, decide_eq_true_eq, decide_eq_true_eq] at hd
  have hle : c.toNat ≤ 57 := hd.2
  omega

end Text

open Text

/-! ### Paths -/

theorem pathStep?_index (hn : (decimal n).length ≤ Number.digitLimit) (rest : List Char) :
    pathStep? ('[' :: decimal n ++ ']' :: rest) = .ok (some (.index n, rest)) := by
  have hdigits : ∀ c ∈ decimal n, (fun c => (digitValue? c).isSome) c = true := by
    intro c hc
    show (digitValue? c).isSome = true
    rw [digitValue?_of_isDigit (isDigit_of_mem_decimal hc)]
    rfl
  have htake : (decimal n ++ ']' :: rest).takeWhile (fun c => (digitValue? c).isSome) = decimal n := by
    rw [takeWhile_append_of_pos hdigits, takeWhile_cons_of_neg (by decide), append_nil]
  have hsign : ∀ more, decimal n ++ ']' :: rest ≠ '-' :: more := by
    intro more heq
    cases hd : decimal n with
    | nil => exact decimal_ne_nil n hd
    | cons c cs =>
      rw [hd, cons_append] at heq
      have hc := isDigit_of_mem_decimal (show c ∈ decimal n by rw [hd]; exact mem_cons_self ..)
      rw [(List.cons.inj heq).1] at hc
      exact absurd hc (by decide)
  have hindex : indexDigits? (decimal n ++ ']' :: rest) = some (false, decimal n, rest) := by
    unfold indexDigits?
    split
    rename_i neg body heq
    have hbody : (neg, body) = (false, decimal n ++ ']' :: rest) := by
      rw [← heq]
      split
      · rename_i more hmore
        exact absurd hmore (hsign more)
      · rfl
    cases hbody
    simp only [htake, List.drop_left, List.isEmpty_iff, decimal_ne_nil, if_false,
      plainDigits_of_isDigit fun c hc => isDigit_of_mem_decimal hc]
  unfold pathStep?
  simp only [cons_append, hindex]
  rw [if_neg (by omega), digitsValue_decimal]
  rfl

theorem pathSteps_cons {cs rest : List Char} {step : PathStep} {acc : List PathStep}
    (h : pathStep? cs = .ok (some (step, rest))) :
    pathSteps text (fuel + 1) acc cs = pathSteps text fuel (step :: acc) rest := by
  cases cs with
  | nil => cases h
  | cons c cs =>
    rw [pathSteps, h]
    exact cons_ne_nil c cs

/-- The path of a word of the memory, written out. -/
def pagesText (p i : Nat) : String :=
  "pages[" ++ ofList (decimal p) ++ "][" ++ ofList (decimal i) ++ "]"

theorem lacks_blank_pagesText (p i : Nat) : Lacks ' ' (pagesText p i) := by
  have hdigits : ∀ n, Lacks ' ' (ofList (decimal n)) := by
    intro n h
    rw [toList_ofList] at h
    exact absurd (isDigit_of_mem_decimal h) (by decide)
  exact ((((by decide : Lacks ' ' "pages[").append (hdigits p)).append (by decide : Lacks ' ' "][")).append
    (hdigits i)).append (by decide : Lacks ' ' "]")

theorem length_decimal_le (h : n < 2 ^ 32) : (decimal n).length ≤ Number.digitLimit := by
  have : (decimal n).length ≤ 10 := Nat.length_toDigits_le_iff (by decide) (by decide) |>.mpr (by omega)
  exact this.trans (by decide)

/-- **The text of a word's place names the path to it.** -/
theorem parsePath_pages {p i : Nat} (hp : p < 2 ^ 32) (hi : i < 2 ^ 32) :
    parsePath (pagesText p i) = .ok [.key "pages", .index p, .index i] := by
  have hchars : (pagesText p i).toList
      = ['p', 'a', 'g', 'e', 's'] ++ ('[' :: decimal p ++ ']' :: ('[' :: decimal i ++ ']' :: [])) := by
    simp [pagesText]
  have hname : pathStep? (['p', 'a', 'g', 'e', 's'] ++ ('[' :: decimal p ++ ']' :: ('[' :: decimal i ++ ']' :: [])))
      = .ok (some (.key "pages", '[' :: decimal p ++ ']' :: ('[' :: decimal i ++ ']' :: []))) := by
    generalize decimal p ++ ']' :: ('[' :: decimal i ++ ']' :: []) = more
    rfl
  obtain ⟨k, hk⟩ : ∃ k, (pagesText p i).length = k + 3 := by
    refine ⟨(pagesText p i).length - 3, ?_⟩
    rw [← length_toList, hchars]
    simp
  have hsteps : pathSteps (pagesText p i) (k + 3) [] (pagesText p i).toList
      = .ok [.key "pages", .index p, .index i] := by
    rw [hchars, pathSteps_cons hname, pathSteps_cons (pathStep?_index (length_decimal_le hp) _),
      pathSteps_cons (pathStep?_index (length_decimal_le hi) _), pathSteps]
    rfl
  unfold parsePath
  rw [hk, hsteps]

end ScoreWasm
