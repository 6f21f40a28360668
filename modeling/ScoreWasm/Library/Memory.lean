import ScoreWasm.Emit.Memory
import ScoreWasm.Library.Control

/-!
# Linear memory

Memory is a list of pages, each a list of words; the lowest byte of a word is the first.  A word is
read and written by its page and its place there, through placeholders.  Accesses of more than a byte
that do not fall on a word go byte by byte.
-/

namespace ScoreWasm.Library

open Emit

def byteScale (index : Nat) : Int := 256 ^ index

/-- The place of a word, with placeholders for its page and its place there. -/
def wordPlace (ns : String) : List Segment :=
  [.text (ns ++ ":memory pages["), .hole "p", .text "][", .hole "i", .text "]"]

def wordArguments : Path := [.key "m"]

def getWord (ns : String) : Script := callWith ns "rt/mem/get" "rt" wordArguments

def setWord (ns : String) : Script := callWith ns "rt/mem/set" "rt" wordArguments

def wordScore : String := (Reg.score "%mw").render

def wordRoutines (ns : String) : List Routine :=
  [("rt/mem/get", template
      (.text ("execute store result score " ++ wordScore ++ " run data get storage ")
        :: wordPlace ns)),
   ("rt/mem/set", template
      (.text "execute store result storage " :: wordPlace ns
        ++ [.text (" int 1 run scoreboard players get " ++ wordScore)])),
   ("rt/mem/locate", .join [
      copy "%mw" "%ma", operate "%mw" .div (const 4),
      copy "%mb" "%ma", operate "%mb" .mod (const 4),
      copy "%mp" "%mw", operate "%mp" .div (const pageWords),
      copy "%mi" "%mw", operate "%mi" .mod (const pageWords),
      writeData ns "rt" [.key "m", .key "p"] "%mp",
      writeData ns "rt" [.key "m", .key "i"] "%mi"])]

/-- Scales a register by the place `%mb` of a byte in its word. -/
def scaleByPlace (r : Reg) (op : ScoreOp) : Script :=
  .join ([1, 2, 3].map (fun (index : Nat) =>
    given [is "%mb" index] (operate r op (const (byteScale index)))))

/-- Moves `%ma` to a byte after the first. -/
def seek (index : Nat) : Script := .onlyIf (index != 0) (copy "%ma" "%ml" ++ add "%ma" index)

def gatherBytes (ns : String) (count : Nat) : Script :=
  .join ([copy "%ml" "%ma"]
    ++ (List.range count).map (fun index => .join [
      seek index, call ns "rt/mem/load8",
      if index == 0 then copy "%mv" "%m8"
      else operate "%m8" .mul (const (byteScale index)) ++ operate "%mv" .add "%m8"])
    ++ [copy "%ma" "%ml"])

def scatterBytes (ns : String) (count : Nat) : Script :=
  .join ([copy "%ml" "%ma"]
    ++ (List.range count).map (fun index => .join [
      seek index, copy "%m8" "%mv",
      .onlyIf (index != 0) (operate "%m8" .div (const (byteScale index))),
      call ns "rt/mem/store8"])
    ++ [copy "%ma" "%ml"])

def unlessAligned (ns path : String) : Script := given [isNot "%mb" 0] (jump ns path)

def loadRoutines (ns : String) : List Routine :=
  [("rt/mem/load8", .join [
      call ns "rt/mem/locate", getWord ns, copy "%m8" "%mw", scaleByPlace "%m8" .div,
      operate "%m8" .mod (const 256)]),
   ("rt/mem/load16", gatherBytes ns 2),
   ("rt/mem/load32", .join [
      call ns "rt/mem/locate", unlessAligned ns "rt/mem/load32_unaligned", getWord ns,
      copy "%mv" "%mw"]),
   ("rt/mem/load32_unaligned", gatherBytes ns 4),
   ("rt/mem/load64", .join [
      copy "%mk" "%ma", call ns "rt/mem/load32", copy "%mlo" "%mv",
      copy "%ma" "%mk", add "%ma" 4, call ns "rt/mem/load32",
      copy (.high "%mv") "%mv", copy "%mv" "%mlo", copy "%ma" "%mk"])]

def storeRoutines (ns : String) : List Routine :=
  [("rt/mem/store8", .join [
      call ns "rt/mem/locate", getWord ns,
      copy "%mn" "%m8", operate "%mn" .mod (const 256),
      copy "%mz" "%mw", scaleByPlace "%mz" .div, operate "%mz" .mod (const 256),
      operate "%mn" .sub "%mz", scaleByPlace "%mn" .mul,
      operate "%mw" .add "%mn", setWord ns]),
   ("rt/mem/store16", scatterBytes ns 2),
   ("rt/mem/store32", .join [
      call ns "rt/mem/locate", unlessAligned ns "rt/mem/store32_unaligned",
      copy "%mw" "%mv", setWord ns]),
   ("rt/mem/store32_unaligned", scatterBytes ns 4),
   ("rt/mem/store64", .join [
      copy "%mk" "%ma", call ns "rt/mem/store32", copy "%mlo" "%mv",
      copy "%ma" "%mk", add "%ma" 4, copy "%mv" (.high "%mv"), call ns "rt/mem/store32",
      copy "%mv" "%mlo", copy "%ma" "%mk"])]

/-- Stores the byte at `%ma` and goes on with the next one. -/
def fillByte (ns path : String) : Script :=
  .join [call ns "rt/mem/store8", add "%ma" 1, add "%mf" (-1), jump ns path]

/-- Filling `%mf` bytes from `%ma` on with the byte in `%m8`: bytes up to a word, then words, then the
bytes that are left. -/
def fillRoutines (ns : String) : List Routine :=
  [("rt/mem/fill", .join [
      operate "%m8" .mod (const 256), copy "%mr" "%m8", operate "%mr" .mul (const 0x01010101),
      jump ns "rt/mem/fill_head"]),
   ("rt/mem/fill_head", .join [
      given [atMost "%mf" 0] (stop 0),
      copy "%mt" "%ma", operate "%mt" .mod (const 4),
      given [is "%mt" 0] (jump ns "rt/mem/fill_words"),
      fillByte ns "rt/mem/fill_head"]),
   ("rt/mem/fill_words", .join [
      given [atMost "%mf" 3] (jump ns "rt/mem/fill_tail"),
      call ns "rt/mem/locate", copy "%mw" "%mr", setWord ns,
      add "%ma" 4, add "%mf" (-4), jump ns "rt/mem/fill_words"]),
   ("rt/mem/fill_tail", .join [
      given [atMost "%mf" 0] (stop 0), fillByte ns "rt/mem/fill_tail"])]

def pagesPath : Path := [.key "pages"]

def zeroPagePath : Path := [.key "zero_page"]

/-- Growing by `%x` pages: the old number of pages in `%q`, or -1. -/
def growRoutines (ns : String) : List Routine :=
  [("rt/mem/grow", .join [
      set "%q" (-1),
      given [isNegative "%x"] (stop 0),
      given [cmp "%x" .gt "%memmax"] (stop 0),
      copy "%mg" "%memsize", operate "%mg" .add "%x",
      given [cmp "%mg" .gt "%memmax"] (stop 0),
      copy "%q" "%memsize", copy "%mg" "%x",
      given [atLeast "%mg" 1] (call ns "rt/mem/grow_loop"),
      operate "%memsize" .add "%x",
      copy "%membytes" "%memsize", operate "%membytes" .mul (const 65536)]),
   ("rt/mem/grow_loop", .join [
      .command (.appendData (inNamespace ns "memory") pagesPath
        (.place (inNamespace ns "rt") zeroPagePath)),
      add "%mg" (-1),
      given [atLeast "%mg" 1] (jump ns "rt/mem/grow_loop")])]

def tableRoutine (ns : String) (table : Nat) : Routine :=
  ("rt/table/t" ++ toString table, template [
    .text ("execute store result score " ++ (Reg.score "%cf").render ++ " run data get storage "
      ++ ns ++ ":table t" ++ toString table ++ "["),
    .hole "i", .text "]"])

end ScoreWasm.Library
