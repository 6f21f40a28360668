import Mathlib
import ScoreWasm.Library.All
import ScoreWasm.Pack.Names
import ScoreWasm.Proofs.Text.Whole

/-!
# Names of functions

A path in a namespace is the name of a function if both are made of the characters for them and are not too
long.  The paths of the library are such.
-/

namespace ScoreWasm.Pack

open Emit List Text

variable {c : Char} {s : String} {tables : Nat}

/-- A namespace that is used as it stands: not too long, and of its characters only. -/
structure Named (ns : String) : Prop where
  nonempty : ns.toList ≠ []
  chars : ns.toList.all isNamespaceChar = true
  short : ns.toList.length ≤ 128

/-- A path that is not too long for any namespace. -/
structure Reaches (path : String) : Prop where
  nonempty : path.toList ≠ []
  chars : path.toList.all isPathChar = true
  short : path.toList.length ≤ 127

instance (path : String) : Decidable (Reaches path) :=
  decidable_of_iff (path.toList ≠ [] ∧ path.toList.all isPathChar = true ∧ path.toList.length ≤ 127)
    ⟨fun ⟨h1, h2, h3⟩ => ⟨h1, h2, h3⟩, fun ⟨h1, h2, h3⟩ => ⟨h1, h2, h3⟩⟩

theorem isPathChar_toNat_lt (h : isPathChar c = true) : c.toNat < 128 := by
  simp only [isPathChar, isNamespaceChar, Bool.or_eq_true, beq_iff_eq] at h
  rcases h with ((((h | h) | rfl) | rfl) | rfl) | rfl
  · simp only [Char.isLower, Bool.and_eq_true, decide_eq_true_eq] at h
    exact Nat.lt_of_le_of_lt h.2 (by decide)
  · simp only [Char.isDigit, Bool.and_eq_true, decide_eq_true_eq] at h
    exact Nat.lt_of_le_of_lt h.2 (by decide)
  all_goals decide

theorem isPathChar_of_isNamespaceChar (h : isNamespaceChar c = true) : isPathChar c = true := by
  simp [isPathChar, h]

variable {ns path : String}

theorem Named.isPlain (h : Named ns) : isPlain ns = true := by
  refine all_eq_true.mpr fun c hc => isPlainChar_of_lt ?_
  have := isPathChar_toNat_lt (isPathChar_of_isNamespaceChar (all_eq_true.mp h.chars c hc))
  exact Nat.lt_trans this (by decide)

/-- A text of characters below 128 has as many code points as characters. -/
theorem size_eq_length (h : ∀ c ∈ s.toList, c.toNat < 128) : size s = s.toList.length := by
  unfold size
  rw [codes_eq_codesOf, codesOf_eq_map, length_map]
  intro c hc
  have := h c hc
  simp only [isMark, halfMark, tailMark, tailStart, tailCount, halfCount,
    Bool.or_eq_false_iff, beq_eq_false_iff_ne]
  omega

theorem toList_inNamespace (ns path : String) : (inNamespace ns path).toList = ns.toList ++ ':' :: path.toList := by
  unfold inNamespace
  rw [String.toList_append, String.toList_append, append_assoc]
  rfl

/-- **A path in a namespace is the name of a function.** -/
theorem checkFunctionName_inNamespace (hns : Named ns) (hpath : Reaches path) :
    checkFunctionName (inNamespace ns path) = .ok () := by
  have hcolon : isNamespaceChar ':' = false := by decide
  have hascii : ∀ c ∈ (inNamespace ns path).toList, c.toNat < 128 := by
    intro c hc
    rw [toList_inNamespace] at hc
    rcases mem_append.mp hc with hc | hc
    · exact isPathChar_toNat_lt (isPathChar_of_isNamespaceChar (all_eq_true.mp hns.chars c hc))
    rcases mem_cons.mp hc with rfl | hc
    · decide
    · exact isPathChar_toNat_lt (all_eq_true.mp hpath.chars c hc)
  have hsize : size (inNamespace ns path) ≤ maxNameLength := by
    have h1 := hns.short
    have h2 := hpath.short
    rw [size_eq_length hascii, toList_inNamespace, length_append, length_cons]
    show _ ≤ 256
    omega
  have hname : isFunctionName (inNamespace ns path) = true := by
    have hlast : dropLineFeed (inNamespace ns path).toList = ns.toList ++ ':' :: path.toList := by
      rw [toList_inNamespace]
      unfold dropLineFeed
      rw [if_neg]
      intro hlast
      have hlast : (ns.toList ++ ':' :: path.toList).getLast? = some '\n' := by simpa using hlast
      rw [getLast?_append, getLast?_cons_of_ne_nil hpath.nonempty] at hlast
      have hmem : '\n' ∈ path.toList := by
        cases h : path.toList.getLast? with
        | none => exact absurd (getLast?_eq_none_iff.mp h) hpath.nonempty
        | some c =>
          rw [h] at hlast
          cases hlast
          exact mem_of_getLast? h
      exact absurd (all_eq_true.mp hpath.chars _ hmem) (by decide)
    have htake : (ns.toList ++ ':' :: path.toList).takeWhile isNamespaceChar = ns.toList := by
      rw [takeWhile_append_of_pos (all_eq_true.mp hns.chars), takeWhile_cons_of_neg (by simp [hcolon]), append_nil]
    unfold isFunctionName
    rw [hlast]
    simp only [htake, drop_left, hpath.chars, Bool.and_true, Bool.and_eq_true, Bool.not_eq_true', isEmpty_eq_false_iff]
    exact ⟨hns.nonempty, hpath.nonempty⟩
  unfold checkFunctionName
  rw [if_neg (by omega), if_pos hname]

/-! ### Numbers in paths -/

theorem isPathChar_of_isDigit (h : c.isDigit = true) : isPathChar c = true := by
  simp [isPathChar, isNamespaceChar, h]

/-- A number is made of characters of a path. -/
theorem natText_chars (n : Nat) : (toString n).toList.all isPathChar = true := by
  rw [Nat.toString_eq_ofList_toDigits, String.toList_ofList, all_eq_true]
  exact fun c hc => isPathChar_of_isDigit (Nat.isDigit_of_mem_toDigits (by decide) (by decide) hc)

/-- A text before the digits of a number is a path. -/
theorem reaches_append_natText {n e : Nat} (hs : s.toList.all isPathChar = true) (hne : s.toList ≠ []) (he : 0 < e)
    (hn : n < 10 ^ e) (hlen : s.toList.length + e ≤ 127) : Reaches (s ++ toString n) := by
  have hlength : (toString n).toList.length ≤ e := Nat.repr_length n e he hn
  refine ⟨?_, ?_, ?_⟩
  · rw [String.toList_append]
    simp [hne]
  · rw [String.toList_append, all_append, hs, natText_chars]
    rfl
  · rw [String.toList_append, length_append]
    omega

/-! ### The paths of the library -/

open Library in
/-- The paths of the functions between those that control a run and those of tables. -/
def middlePaths : List String :=
  (trapRoutines ++ divisionRoutines "" ++ bitwiseRoutines ++ shiftRoutines "" ++ countRoutines
    ++ multiplyRoutines "" ++ wideDivisionRoutines "" ++ wideShiftRoutines "" ++ wideCountRoutines ""
    ++ [singleOrderRoutine, doubleOrderRoutine]
    ++ wordRoutines "" ++ loadRoutines "" ++ storeRoutines "" ++ fillRoutines "" ++ growRoutines "").map Prod.fst

/-- The routines of the turtle. -/
def turtlePaths : List String := (Library.turtleBlockRoutines "" ++ Library.turtleBoxRoutines "").map Prod.fst

/-- The routines of the control. -/
def controlPaths (budget : Option Int) : List String := (Library.controlRoutines "" budget).map Prod.fst

/-- The routine of a table. -/
def tablePath (i : Nat) : String := "rt/table/t" ++ toString i

open Library in
/-- The library has the same paths in all namespaces. -/
theorem paths_routines (ns : String) (budget : Option Int) (tables : Nat) : (routines ns budget tables).map Prod.fst
      = controlPaths budget ++ middlePaths ++ (List.range tables).map tablePath ++ turtlePaths := by
  unfold routines controlPaths middlePaths turtlePaths
  simp only [map_append, map_map, append_assoc]
  refine congrArg₂ (· ++ ·) (by cases budget <;> rfl) ?_
  iterate 16 refine congrArg₂ (· ++ ·) (by rfl) ?_
  rfl

theorem controlPaths_sublist (budget : Option Int) : (controlPaths budget).Sublist (controlPaths (some 0)) := by
  cases budget with
  | none => decide
  | some b => exact List.Sublist.refl _

/-- A property of all paths of the library, for which those that do not depend on anything are looked at. -/
theorem forall_routines {P : String → Prop} (ns : String) (budget : Option Int)
    (hfixed : ∀ path ∈ controlPaths (some 0) ++ middlePaths ++ turtlePaths, P path)
    (htable : ∀ i < tables, P (tablePath i)) : ∀ r ∈ Library.routines ns budget tables, P r.1 := by
  intro r hr
  have hpath : r.1 ∈ (Library.routines ns budget tables).map Prod.fst := mem_map_of_mem hr
  simp only [mem_append] at hfixed
  simp only [paths_routines, mem_append, mem_map, mem_range] at hpath
  rcases hpath with ((hpath | hpath) | ⟨i, hi, hpath⟩) | hpath
  · exact hfixed _ (.inl (.inl ((controlPaths_sublist budget).subset hpath)))
  · exact hfixed _ (.inl (.inr hpath))
  · exact hpath ▸ htable i hi
  · exact hfixed _ (.inr hpath)

/-- **The paths of the library can be used in every namespace.** -/
theorem reaches_routines (ns : String) (budget : Option Int) (h : tables ≤ 10 ^ 10) :
    ∀ r ∈ Library.routines ns budget tables, Reaches r.1 :=
  forall_routines ns budget (by decide +kernel) fun i hi =>
    reaches_append_natText (e := 10) (by decide) (by decide) (by decide) (by omega) (by decide)

/-- **No two functions of the library have one path.** -/
theorem nodup_routines (ns : String) (budget : Option Int) (tables : Nat) :
    ((Library.routines ns budget tables).map Prod.fst).Nodup := by
  have hfixed : (controlPaths (some 0) ++ middlePaths ++ turtlePaths).Nodup := by decide +kernel
  have hplain : ∀ path ∈ controlPaths (some 0) ++ middlePaths ++ turtlePaths, ¬ "rt/table/t".toList <+: path.toList := by
    decide +kernel
  have hsub : (controlPaths budget ++ middlePaths ++ turtlePaths).Sublist
      (controlPaths (some 0) ++ middlePaths ++ turtlePaths) :=
    ((controlPaths_sublist budget).append (List.Sublist.refl _)).append (List.Sublist.refl _)
  have htables : ((List.range tables).map tablePath).Nodup := by
    refine List.Nodup.map (fun i j h => ?_) nodup_range
    rw [tablePath, tablePath, String.append_right_inj] at h
    exact Nat.repr_inj.mp h
  rw [paths_routines, append_assoc _ ((List.range tables).map tablePath),
    (perm_append_comm.append_left _).nodup_iff, ← append_assoc, nodup_append]
  refine ⟨hsub.nodup hfixed, htables, fun path hpath path' hpath' heq => ?_⟩
  obtain ⟨i, -, rfl⟩ := mem_map.mp hpath'
  subst heq
  refine hplain _ (hsub.subset hpath) ?_
  rw [tablePath, String.toList_append]
  exact prefix_append ..

end ScoreWasm.Pack
