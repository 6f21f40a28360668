import ScoreWasm.Library.All
import ScoreWasm.Proofs.Emit.Fitting

/-!
# The library in layers

A function of the library only calls functions of lower levels, and goes on in functions of its own level or
lower ones (`sound_routines`).  Nearly all lines are commands.  The others are templates; what stands for
their holes are numbers, and names of functions.
-/

namespace ScoreWasm

open Text Emit Machine Turtle List
open Script hiding all_append

variable {cs : List Char} {text s : String}

/-! ### Places that are put together from numbers -/

/-- The characters of names that stand for numbers and functions, and of quoted names. -/
def nameMarks : List Char := ['k', 'p', 'i', 'x', 'y', 'z', '"']

theorem isPlain_key (h : ∀ a ∈ nameMarks, s ≠ String.singleton a) : (PathStep.key s).isPlain = true := by
  have h1 := h 'k' (by decide)
  have h2 := h 'p' (by decide)
  have h3 := h 'i' (by decide)
  have h4 := h 'x' (by decide)
  have h5 := h 'y' (by decide)
  have h6 := h 'z' (by decide)
  simp_all [PathStep.isPlain, numberKeys]

theorem isPlain_of_pathStep? {r : PathStep × List Char} (hcs : ∀ c ∈ cs, c ∉ nameMarks)
    (h : pathStep? cs = .ok (some r)) : r.1.isPlain = true ∧ ∀ c ∈ r.2, c ∈ cs := by
  have hname : ∀ cs : List Char, (∀ c ∈ cs, c ∉ nameMarks) → nameStep? cs = some r →
      r.1.isPlain = true ∧ ∀ c ∈ r.2, c ∈ cs := by
    intro cs hcs h
    unfold nameStep? at h
    split at h
    · exact absurd (hcs '"' (.head _)) (by decide)
    · dsimp only at h
      split at h <;> cases h
      refine ⟨isPlain_key fun a ha heq => ?_, fun c hc => mem_of_mem_drop hc⟩
      have hone : cs.takeWhile isPathChar = [a] := by simpa using congrArg String.toList heq
      exact hcs a (takeWhile_subset _ (hone ▸ mem_singleton_self a)) ha
  unfold pathStep? at h
  split at h
  · split at h
    · cases h
    · rename_i hd
      split at h <;> cases h
      refine ⟨rfl, fun c hc => ?_⟩
      unfold indexDigits? at hd
      grind
  · have := hname _ (fun c hc => hcs c (.tail _ hc)) (Except.ok.inj h)
    exact ⟨this.1, fun c hc => .tail _ (this.2 c hc)⟩
  · exact hname _ hcs (Except.ok.inj h)

theorem isPlain_of_pathSteps {fuel : Nat} {acc path : Path} (hcs : ∀ c ∈ cs, c ∉ nameMarks)
    (hacc : acc.all PathStep.isPlain = true) (h : pathSteps text fuel acc cs = .ok path) :
    path.all PathStep.isPlain = true := by
  fun_induction pathSteps text fuel acc cs with
  | case1 =>
    cases h
    rwa [all_reverse]
  | case2 => cases h
  | case3 fuel acc cs hne step rest hstep ih =>
    obtain ⟨hplain, hrest⟩ := isPlain_of_pathStep? hcs hstep
    exact ih (fun c hc => hcs c (hrest c hc)) (by simp [hplain, hacc]) h
  | case4 | case5 => cases h

/-- The place of a word takes numbers, whatever numbers its page and its place there are. -/
theorem takesNumber_pages {p i : Int} (ht : text = "pages[" ++ (toString p ++ ("][" ++ (toString i ++ "]"))))
    {path : Path} (h : parsePath text = .ok path) : path.takesNumber = true := by
  have hplain : path.all PathStep.isPlain = true := by
    have hdigits : ∀ j : Int, ∀ c ∈ (toString j).toList, c ∉ nameMarks := by
      intro j c hc hmark
      have hne : ∀ c ∈ nameMarks, c.isDigit = false ∧ c ≠ '-' := by simp [nameMarks]
      exact lacks_intText (hne c hmark).1 (hne c hmark).2 j hc
    obtain ⟨rest, hrest, hmarks⟩ : ∃ rest, text.toList = ['p', 'a', 'g', 'e', 's'] ++ '[' :: rest ∧ ∀ c ∈ rest, c ∉ nameMarks := by
      refine ⟨(toString p).toList ++ (']' :: '[' :: ((toString i).toList ++ [']'])), by simp [ht], ?_⟩
      simp only [forall_mem_append, forall_mem_cons, not_mem_nil, false_implies, implies_true, and_true]
      exact ⟨hdigits p, by decide, by decide, hdigits i, by decide⟩
    obtain ⟨k, hk⟩ : ∃ k, text.length = k + 1 := ⟨text.length - 1, by rw [← String.length_toList, hrest]; simp⟩
    have hstep : pathStep? (['p', 'a', 'g', 'e', 's'] ++ '[' :: rest) = .ok (some (.key "pages", '[' :: rest)) := rfl
    unfold parsePath at h
    rw [hk, hrest, pathSteps_cons hstep] at h
    have hsteps : pathSteps text k [.key "pages"] ('[' :: rest) = .ok path := by
      split at h
      · cases h
      · exact h
    exact isPlain_of_pathSteps (forall_mem_cons.mpr ⟨by decide, hmarks⟩) (by decide) hsteps
  simp only [Path.takesNumber, Bool.and_eq_true, bne_iff_ne, ne_eq]
  rw [all_eq_true] at hplain
  refine ⟨all_eq_true.mpr fun s hs => hplain s (mem_of_mem_dropLast hs), fun hk => ?_⟩
  exact absurd (hplain _ (mem_of_getLast? hk)) (by decide)

namespace Library

variable {budget : Option Int}

attribute [local simp] is isNot atLeast atMost isNegative within outside Emit.cmp cmpNot storeIn

variable {H : Home} {n : Nat}

theorem fits_word {w t : String} {rest : List Segment} (hs : s = w ++ (" " ++ t)) (hw : Lacks ' ' w)
    (hverb : w ∉ ["execute", "return", "function", "data", "schedule"]) (hplain : arePlain (.text s :: rest) = true) :
    (template (.text s :: rest)).Fits H n := by
  refine all_template.mpr ⟨hplain, ?_⟩
  rintro line ⟨r, -, rfl⟩
  rw [hs, String.append_assoc, String.append_assoc, splitOn_append, splitOn_word hw]
  exact reads_plain hverb

theorem reads_fetch {w h o : String} (hw : splitOn ' ' w = ["execute", "store", "result", "score", h, o, "run", "data", "get", "storage"])
    (t : String) : Reads H n false (splitOn ' ' (w ++ (" " ++ t))) := by
  rw [splitOn_append, hw]
  exact reads_execute (readsClauses_store (fun _ _ => parseStore_score) (readsClauses_run reads_getData))

theorem isPlain_wordPlace (hns : isPlain H.ns = true) : arePlain (wordPlace H.ns) = true := by
  simp only [wordPlace, arePlain, all_cons, Segment.render, isPlain_append, hns]
  decide

theorem fits_wordRoutines (hplain : isPlain H.ns = true) (hb : Lacks ' ' H.ns) :
    ∀ r ∈ wordRoutines H.ns, r.2.Fits H (level r.1) := by
  have hplace := isPlain_wordPlace hplain
  simp only [wordRoutines, forall_mem_cons, not_mem_nil, false_implies, implies_true, and_true]
  refine ⟨all_template.mpr ⟨?_, ?_⟩, all_template.mpr ⟨?_, ?_⟩, ?_⟩
  · simp only [arePlain, all_cons] at hplace ⊢
    rw [hplace]
    decide
  · rintro line ⟨r, -, rfl⟩
    rw [show "execute store result score " ++ wordScore ++ " run data get storage "
      = "execute store result score " ++ wordScore ++ " run data get storage" ++ " " from rfl, String.append_assoc]
    exact reads_fetch rfl r
  · simp only [arePlain, all_append, all_cons, cons_append] at hplace ⊢
    rw [hplace]
    decide
  · rintro line ⟨_, ⟨_, ⟨p, _, hp, ⟨_, ⟨i, _, hi, ⟨_, ⟨_, rfl, rfl⟩, rfl⟩, rfl⟩, rfl⟩, rfl⟩, rfl⟩, rfl⟩
    obtain ⟨p, rfl⟩ := hp.2 (by decide)
    obtain ⟨i, rfl⟩ := hi.2 (by decide)
    have hplace : Lacks ' ' ("pages[" ++ (toString p ++ ("][" ++ (toString i ++ "]")))) :=
      Lacks.append (by decide) (Lacks.append (lacks_intText (by decide) (by decide) p) (Lacks.append (by decide)
        (Lacks.append (lacks_intText (by decide) (by decide) i) (by decide))))
    rw [show "execute store result storage " = "execute store result storage" ++ " " from rfl,
      show H.ns ++ ":memory pages[" = H.ns ++ ":memory" ++ (" " ++ "pages[") by rw [String.append_assoc]; rfl,
      show " int 1 run scoreboard players get " ++ wordScore = " " ++ ("int 1 run scoreboard players get " ++ wordScore) from rfl]
    have hline : "execute store result storage" ++ " " ++ (H.ns ++ ":memory" ++ (" " ++ "pages[") ++ (toString p ++ ("][" ++
        (toString i ++ ("]" ++ (" " ++ ("int 1 run scoreboard players get " ++ wordScore) ++ ""))))))
        = "execute store result storage" ++ (" " ++ (H.ns ++ ":memory" ++ (" " ++ ("pages[" ++ (toString p ++ ("][" ++
          (toString i ++ "]"))) ++ (" " ++ ("int 1 run scoreboard players get " ++ wordScore)))))) := by
      simp only [String.append_assoc, String.append_empty]
    rw [hline, splitOn_append, splitOn_append, splitOn_append, splitOn_word (hb.append (by decide)), splitOn_word hplace]
    refine reads_execute (readsClauses_store (fun _ _ => parseStore_storage fun _ => takesNumber_pages rfl) ?_)
    exact readsClauses_run (reads_plain (by decide))
  · simp +decide

theorem fits_tableRoutine (hplain : isPlain H.ns = true) (table : Nat) : (tableRoutine H.ns table).2.Fits H n := by
  refine all_template.mpr ⟨?_, ?_⟩
  · simp only [arePlain, all_cons, Segment.render, isPlain_append, hplain, isPlain_natText]
    decide
  · rintro line ⟨r, -, rfl⟩
    rw [show "execute store result score " ++ (Reg.score "%cf").render ++ " run data get storage "
      = "execute store result score " ++ (Reg.score "%cf").render ++ " run data get storage" ++ " " from rfl]
    simp only [String.append_assoc]
    rw [← String.append_assoc, ← String.append_assoc]
    exact reads_fetch rfl _

theorem arePlain_probe : ∀ i : Fin palette.length, arePlain (.text "execute if block " :: holes ["x", "y", "z"]
      ++ [.text (" " ++ palette[i] ++ " run return run " ++ (Command.setScore (Reg.score "%tb") (i : Nat)).render)]) = true := by
  decide

theorem reads_probe {block run : String} (hblock : Lacks ' ' block) {v : Int}
    (hrun : run = " " ++ block ++ " run return run " ++ ("scoreboard players set " ++ (Reg.score "%tb").render ++ " " ++ toString v))
    (line : String)
    (h : Segment.Become H (.text "execute if block " :: holes ["x", "y", "z"] ++ [.text run]) line) :
    Reads H n false (splitOn ' ' line) := by
  obtain ⟨_, ⟨x, _, hx, ⟨_, ⟨y, _, hy, ⟨_, ⟨z, _, hz, ⟨_, rfl, rfl⟩, rfl⟩, rfl⟩, rfl⟩, rfl⟩, rfl⟩, rfl⟩ := h
  obtain ⟨x, rfl⟩ := hx.2 (by decide)
  obtain ⟨y, rfl⟩ := hy.2 (by decide)
  obtain ⟨z, rfl⟩ := hz.2 (by decide)
  have hint : ∀ j : Int, splitOn ' ' (toString j) = [toString j] := fun j =>
    splitOn_word (lacks_intText (by decide) (by decide) j)
  rw [hrun, show "execute if block " = "execute if block" ++ " " from rfl,
    show " run return run " = " " ++ ("run return run" ++ " ") from rfl,
    show "scoreboard players set " = "scoreboard" ++ (" " ++ "players set ") from rfl]
  simp only [String.append_assoc]
  iterate 7 rw [splitOn_append]
  rw [hint, hint, hint, splitOn_word hblock]
  refine reads_execute (readsClauses_if (fun _ _ => parseTest_block) (readsClauses_run (reads_retRun ?_)))
  exact reads_plain (by decide)

theorem fits_turtleBlockRoutines : ∀ r ∈ turtleBlockRoutines H.ns, r.2.Fits H (level r.1) := by
  simp only [turtleBlockRoutines, forall_mem_cons, not_mem_nil, false_implies, implies_true, and_true]
  refine ⟨?_, by simp +decide [stopUnlessPalette, withTurtle],
    fits_word (w := "setblock") (t := "") rfl (by decide) (by decide) (by decide), by simp +decide [withTurtle], ?_⟩
  · exact all_join_mapIdx fun i block => by simp +decide [turtleField, turtlePath, Nbt.Suited]
  · refine all_join.mpr fun s hs => ?_
    obtain ⟨i, hi, rfl⟩ := mem_mapIdx.mp hs
    refine all_template.mpr ⟨arePlain_probe ⟨i, hi⟩, ?_⟩
    exact reads_probe ((by decide : ∀ b ∈ palette, Lacks ' ' b) _ (getElem_mem hi)) rfl

theorem fits_turtleBoxRoutines : ∀ r ∈ turtleBoxRoutines H.ns, r.2.Fits H (level r.1) := by
  unfold turtleBoxRoutines pasteRoutines
  simp only [forall_mem_append, forall_mem_cons, not_mem_nil, false_implies, implies_true, and_true]
  refine ⟨⟨⟨?_, by simp +decide [stopUnlessPalette, onBox, withTurtle], ?_, by simp +decide [onBox, withTurtle], ?_⟩,
    by simp +decide [onBox, withTurtle], ?_⟩, by simp +decide [onBox, withTurtle], ?_⟩
  · simp +decide [clipboard, spanAxis, turtleField, turtlePath]
  · exact fits_word (w := "fill") (t := "") rfl (by decide) (by decide) (by decide)
  · exact fits_word (w := "clone") (t := "") rfl (by decide) (by decide) (by decide)
  · exact fits_word (w := "clone") (t := clipboardText ++ " ") rfl (by decide) (by decide) (by decide)
  · exact fits_word (w := "clone") (t := clipboardText ++ " ") rfl (by decide) (by decide) (by decide)

theorem fits_gatherBytes {n : Nat} (hn : 2 < n) (count : Nat) : (gatherBytes H.ns count).Fits H n := by
  simp only [gatherBytes, all_join, forall_mem_append, forall_mem_singleton, forall_mem_map]
  refine ⟨⟨by simp, fun index _ => ?_⟩, by simp⟩
  have : level "rt/mem/load8" = 2 := by decide
  split <;> simp [seek, this, hn]

theorem fits_return : (template [.text "return run function ", .hole "k"]).Fits H 5 := by
  refine all_template.mpr ⟨by decide, ?_⟩
  rintro line ⟨_, ⟨k, _, hk, rfl, rfl⟩, rfl⟩
  obtain ⟨hblank, hne⟩ := hk.1 rfl
  rw [show "return run function " = "return run function" ++ " " from rfl, String.append_assoc,
    String.append_empty, splitOn_append, splitOn_word hblank]
  refine reads_retRun (reads_function fun path hpath => level_le_five ?_)
  rintro rfl
  exact hne hpath

/-- What is written of a function of the library: its lines are of its level, and can be written. -/
def Sound (H : Home) (r : Routine) : Prop := r.2.All fun l => l.Suits H (level r.1) ∧ l.HasBytes

theorem sound_of_fits {r : Routine} (h : r.2.Fits H (level r.1)) : Sound H r := fun l hl => ⟨.inl (h l hl), (h l hl).hasBytes⟩

theorem sound_controlRoutines (ht : budget.isSome = true → H.timed = true) :
    ∀ r ∈ controlRoutines H.ns budget, Sound H r := by
  have hclear : ∀ n, (clearFrames H.ns).Fits H n := fun n => by simp +decide [clearFrames, Nbt.Suited]
  simp only [controlRoutines, forall_mem_append, forall_mem_cons, not_mem_nil, false_implies, implies_true, and_true]
  refine ⟨⟨sound_of_fits fits_return, sound_of_fits (by simp), sound_of_fits (by simp [hclear]), ?_⟩, ?_⟩
  · have hset : ∀ (r : Reg) (v : Int), Sound H ("rt/reset", Emit.set r v) := fun r v => sound_of_fits (fits_set r v)
    have hdrop : budget.isSome = true → Sound H ("rt/reset", .command (.unschedule (inNamespace H.ns "rt/resume"))) := by
      intro hsome
      exact all_command.mpr ⟨.inr (.inl ⟨ht hsome, _, rfl, .inl rfl⟩), trivial⟩
    have hframes : Sound H ("rt/reset", clearFrames H.ns) := sound_of_fits (hclear _)
    unfold Sound at hset hdrop hframes ⊢
    simp only [all_join_cons, all_join_nil, and_true]
    refine ⟨hset _ _, hset _ _, hset _ _, hset _ _, ?_, hframes⟩
    cases budget with
    | none => exact all_empty
    | some b =>
      refine all_join.mpr (forall_mem_cons.mpr ⟨hset _ _, forall_mem_singleton.mpr (hdrop rfl)⟩)
  · cases budget with
    | none => simp
    | some b =>
      simp only [forall_mem_cons, not_mem_nil, false_implies, implies_true, and_true]
      exact ⟨sound_of_fits (by simp), sound_of_fits (by simp +decide [followCommand, Library.inNamespace_inj])⟩

/-- **The functions of the library are of their levels**, and can be written. -/
theorem sound_routines (hplain : isPlain H.ns = true) (hb : Lacks ' ' H.ns)
    (ht : budget.isSome = true → H.timed = true) (tables : Nat) : ∀ r ∈ routines H.ns budget tables, Sound H r := by
  have hboth : ∀ {l : List Routine}, (∀ r ∈ l, r.2.Fits H (level r.1)) → ∀ r ∈ l, Sound H r :=
    fun h r hr => sound_of_fits (h r hr)
  unfold routines
  simp only [forall_mem_append]
  iterate 18 refine ⟨?_, hboth ?_⟩
  · exact sound_controlRoutines ht
  · intro r hr
    obtain ⟨kind, -, rfl⟩ := mem_map.mp hr
    simp [level_trapPath]
  · simp +decide [divisionRoutines, biased, notBelow]
  · simp +decide [bitwiseRoutines, bitwiseRoutine, bitwiseStep]
  · simp +decide [shiftRoutines, shiftDistance, shiftSteps, clearSign]
  · simp +decide [countRoutines, answer, clearSign, or_imp, forall_and]
  · simp +decide [multiplyRoutines, splitHalves, highHalfInto, productInto]
  · simp +decide [wideDivisionRoutines, divisionStepRoutine, doublePair, negateRoutine, negatePair]
  · simp +decide [wideShiftRoutines, wideShiftRight, wideShift, shiftWord, shiftWordBack, testMask]
  · simp +decide [wideCountRoutines]
  · simp +decide [singleOrderRoutine, doubleOrderRoutine, magnitude, orderBySign, turnIfNegative,
      orderWords, stopIfNaN, answer, clearSign]
  · exact fits_wordRoutines hplain hb
  · simp +decide [loadRoutines, getWord, scaleByPlace, unlessAligned, fits_gatherBytes]
  · simp +decide [storeRoutines, scatterBytes, getWord, setWord, scaleByPlace, unlessAligned, seek, or_imp, forall_and]
  · simp +decide [fillRoutines, fillByte, setWord]
  · simp +decide [growRoutines, Source.Suited]
  · intro r hr
    obtain ⟨i, -, rfl⟩ := mem_map.mp hr
    exact fits_tableRoutine hplain i
  · exact fits_turtleBlockRoutines
  · exact fits_turtleBoxRoutines

end Library

end ScoreWasm
