import ScoreWasm.Library.Memory
import ScoreWasm.Proofs.Command.Words
import ScoreWasm.Proofs.Emit.Effects
import ScoreWasm.Proofs.Monad

/-!
# Words of linear memory

Linear memory as a list of pages of words, and the two lines that read and write one word: what they are
once their placeholders are filled in, and what they do.
-/

namespace ScoreWasm.Library

open Emit Machine Machine.View Word Text Array

/-! ### Pages -/

/-- A number of pages of a size with the words that a function gives. -/
def pagesOf (size n : Nat) (f : Nat → Int) : Nbt :=
  .list (ofFn fun p : Fin n => .list (ofFn fun i : Fin size => .int (f (p * size + i))))

theorem position?_of_lt {size k : Nat} (h : k < size) : position? size (k : Int) = some k := by
  unfold position?
  rw [if_pos (by omega), if_pos (by omega)]
  rfl

section Pages

variable {size n W : Nat} (f : Nat → Int)

theorem page_lt (hW : W < n * size) : W / size < n := Nat.div_lt_of_lt_mul (by rwa [Nat.mul_comm])

theorem place_lt (hW : W < n * size) : W % size < size :=
  Nat.mod_lt _ (Nat.pos_of_ne_zero fun h => by simp [h] at hW)

section

variable (hW : W < n * size)
include hW

theorem child_pagesOf : (pagesOf size n f).child? (.index (W / size : Nat))
      = some (.list (ofFn fun i : Fin size => .int (f (W / size * size + i)))) := by
  have hpage := page_lt hW
  simp only [pagesOf, Nbt.child?, size_ofFn]
  rw [position?_of_lt hpage]
  simp [hpage]

/-- A word is found by its page and its place there. -/
theorem lookup_pagesOf :
    Nbt.lookup [.index (W / size : Nat), .index (W % size : Nat)] (pagesOf size n f) = some (.int (f W)) := by
  have hplace := place_lt hW
  rw [Nbt.lookup, child_pagesOf f hW]
  simp only [Option.bind_some, Nbt.lookup, Nbt.child?, size_ofFn]
  rw [position?_of_lt hplace]
  simp [hplace, Nat.div_add_mod']

theorem assign_page (x : Int) : Nbt.assign (.int x) [.index (W % size : Nat)]
        (.list (ofFn fun i : Fin size => .int (f (W / size * size + i))))
      = (true, .list (ofFn fun i : Fin size => .int (Function.update f W x (W / size * size + i)))) := by
  have hplace := place_lt hW
  simp only [Nbt.assign, Nbt.accepts, Nbt.put, size_ofFn]
  rw [position?_of_lt hplace]
  simp only [Option.isSome_some, Prod.mk.injEq, true_and, Nbt.list.injEq]
  refine ext (by simp) fun i h1 h2 => ?_
  have hi : i < size := by simpa using h2
  rw [getElem_setIfInBounds (by simpa using hi)]
  by_cases heq : W % size = i
  · subst heq
    simp [Nat.div_add_mod']
  · have hne : W / size * size + i ≠ W := by
      intro h
      have := Nat.div_add_mod' W size
      omega
    simp [heq, Function.update_of_ne hne]

/-- A word is replaced by its page and its place there. -/
theorem assign_pagesOf (x : Int) :
    Nbt.assign (.int x) [.index (W / size : Nat), .index (W % size : Nat)] (pagesOf size n f)
      = (true, pagesOf size n (Function.update f W x)) := by
  have hpage := page_lt hW
  have hchild := child_pagesOf f hW
  simp only [Nbt.assign, hchild] at *
  have hpair := assign_page f hW x
  simp only [Nbt.assign, Prod.mk.injEq] at hpair
  rw [hpair.1, hpair.2]
  simp only [pagesOf, Nbt.put, size_ofFn, Prod.mk.injEq, true_and]
  rw [position?_of_lt hpage]
  simp only [Nbt.list.injEq]
  refine ext (by simp) fun p h1 h2 => ?_
  have hp : p < n := by simpa using h2
  rw [getElem_setIfInBounds (by simpa using hp)]
  by_cases heq : W / size = p
  · subst heq
    simp
  · have hne : ∀ i : Fin size, p * size + i ≠ W := by
      intro i h
      apply heq
      rw [← h, Nat.add_comm, Nat.add_mul_div_right _ _ (i.pos), Nat.div_eq_of_lt i.isLt, Nat.zero_add]
    simp [heq, Function.update_of_ne (hne _)]

end

end Pages

/-! ### Lines -/

/-- A line whose clauses are followed by a command. -/
theorem parse_execute {line : String} (rest body : List String) {clauses : List Clause}
    {c : Command} (hline : line = sentence ("execute" :: rest)) (hrest : ∀ w ∈ rest, Lacks ' ' w)
    (h : parseClauses line rest.length [] rest = .ok (clauses, some body))
    (hbody : parseWords (rest.length + 1) (nestingLimit - 2) body = .ok c) : parseCommand line = .ok (.execute clauses c) := by
  rw [hline] at h
  rw [parseCommand, hline, splitOn_sentence (by decide) hrest, parseWords]
  exact Except.bind_eq_ok.mpr ⟨_, h, Except.bind_eq_ok.mpr ⟨c, hbody, rfl⟩⟩

/-- Where a word of the memory is stored. -/
def wordPath (W : Nat) : Path := [.key "pages", .index (W / pageWords : Nat), .index (W % pageWords : Nat)]

/-- The place of a word, written out. -/
def wordText (ns : String) (W : Nat) : String :=
  ns ++ ":memory pages[" ++ toString ((W / pageWords : Nat) : Int) ++ "]["
    ++ toString ((W % pageWords : Nat) : Int) ++ "]"

theorem wordText_eq (ns : String) (W : Nat) :
    wordText ns W = inNamespace ns "memory" ++ " " ++ pagesText (W / pageWords) (W % pageWords) := by
  unfold wordText pagesText inNamespace
  rw [toString_eq_decimal, toString_eq_decimal]
  apply String.toList_injective
  simp

section

variable {ns : String} (hns : Lacks ' ' ns) {W : Nat} (hW : W < 2 ^ 32)
include hns hW

theorem lacks_blank_place : Lacks ' ' (inNamespace ns "memory") ∧ Lacks ' ' (pagesText (W / pageWords) (W % pageWords)) ∧
    parsePath (pagesText (W / pageWords) (W % pageWords)) = .ok (wordPath W) :=
  ⟨(hns.append (by decide)).append (by decide), lacks_blank_pagesText _ _,
    parsePath_pages ((Nat.div_le_self _ _).trans_lt hW) ((Nat.mod_le _ _).trans_lt hW)⟩

theorem parse_getWord :
    parseCommand ("" ++ ("execute store result score " ++ wordScore ++ " run data get storage ") ++ wordText ns W)
      = .ok (.execute [storeIn "%mw"] (.getData (inNamespace ns "memory") (wordPath W) Binary64.one)) := by
  obtain ⟨hid, hplace, hpath⟩ := lacks_blank_place hns hW
  refine parse_execute ["store", "result", "score", "%mw", "wasm", "run", "data", "get", "storage",
    inNamespace ns "memory", pagesText (W / pageWords) (W % pageWords)] _ ?_ ?_ rfl ?_
  · rw [wordText_eq, show wordScore = "%mw wasm" by decide]
    apply String.toList_injective
    simp [sentence, join]
  · simp +decide [hid, hplace]
  · show Except.map _ (parsePath _) = _
    rw [hpath]
    rfl

theorem parse_setWord : parseCommand ("" ++ "execute store result storage " ++ wordText ns W
        ++ (" int 1 run scoreboard players get " ++ wordScore))
      = .ok (.execute [.store ⟨.result, .data (inNamespace ns "memory") (wordPath W) .int Binary64.one⟩]
          (.getScore (Reg.score "%mw"))) := by
  obtain ⟨hid, hplace, hpath⟩ := lacks_blank_place hns hW
  refine parse_execute ["store", "result", "storage", inNamespace ns "memory", pagesText (W / pageWords) (W % pageWords),
    "int", "1", "run", "scoreboard", "players", "get", "%mw", "wasm"] ["scoreboard", "players", "get", "%mw", "wasm"]
    ?_ ?_ ?_ rfl
  · rw [wordText_eq, show wordScore = "%mw wasm" by decide]
    apply String.toList_injective
    simp [sentence, join]
  · simp +decide [hid, hplace]
  · show Except.bind (Except.bind (parsePath _) _) _ = _
    rw [hpath]
    dsimp only [Except.bind]
    rfl

end

end ScoreWasm.Library
