import ScoreWasm.Command.Line
import ScoreWasm.Command.Register
import ScoreWasm.Number.Word
import ScoreWasm.Wasm.Trap

/-!
# Scripts

A script is a list of lines together with the constants that they need: a constant is a register that
is set once, before anything runs.  Scripts are put together from a handful of shapes, and all code of
a compiled program is written with them.
-/

namespace ScoreWasm.Emit

open Word Wasm

structure Script where
  lines : List Line
  constants : List Int

namespace Script

def empty : Script := ⟨[], []⟩

instance : Append Script := ⟨fun a b => ⟨a.lines ++ b.lines, a.constants ++ b.constants⟩⟩

def join (scripts : List Script) : Script :=
  ⟨scripts.flatMap Script.lines, scripts.flatMap Script.constants⟩

def command (c : Command) : Script := ⟨[.command c], []⟩

def onlyIf (b : Bool) (s : Script) : Script := if b then s else empty

end Script

/-! ### Conditions -/

def is (r : Reg) (v : Int) : Clause := .holds (.within r.score (.exactly v))

def isNot (r : Reg) (v : Int) : Clause := .fails (.within r.score (.exactly v))

def atLeast (r : Reg) (v : Int) : Clause := .holds (.within r.score (.atLeast v))

def atMost (r : Reg) (v : Int) : Clause := .holds (.within r.score (.atMost v))

def isNegative (r : Reg) : Clause := atMost r (-1)

def within (r : Reg) (range : Range) : Clause := .holds (.within r.score range)

def outside (r : Reg) (range : Range) : Clause := .fails (.within r.score range)

def cmp (a : Reg) (op : Comparison) (b : Reg) : Clause := .holds (.compare a.score op b.score)

def cmpNot (a : Reg) (op : Comparison) (b : Reg) : Clause := .fails (.compare a.score op b.score)

/-! ### Scores -/

def minInt : Int := -2147483648

def const (v : Int) : Reg := .const (wrap32 v)

def set (r : Reg) (v : Int) : Script := .command (.setScore r.score (wrap32 v))

def operate (a : Reg) (op : ScoreOp) (b : Reg) : Script :=
  ⟨[.command (.operate a.score op b.score)], b.constants⟩

/-- Adds a number to a register.  The least value is added from a register, since no command takes
its opposite. -/
def add (r : Reg) (v : Int) : Script :=
  let v := wrap32 v
  if v == 0 then .empty
  else if v == minInt then operate r .add (const v)
  else .command (.addScore r.score v)

def copy (dst src : Reg) : Script :=
  if dst == src then .empty else operate dst .assign src

def copyValue (dst src : Reg) (wide : Bool) : Script :=
  copy dst src ++ .onlyIf wide (copy dst.high src.high)

def given (clauses : List Clause) (s : Script) : Script :=
  { s with lines := s.lines.map (fun l => match l with
      | .command c => .command (.execute clauses c)
      | other => other) }

def storeIn (r : Reg) : Clause := .store ⟨.result, .score r.score⟩

/-- Sets a register to one if conditions hold and to zero otherwise. -/
def test (r : Reg) (clauses : List Clause) : Script := .command (.check (storeIn r :: clauses))

/-! ### Functions and storages -/

def inNamespace (ns path : String) : String := ns ++ ":" ++ path

def call (ns path : String) : Script := .command (.function (inNamespace ns path) none)

def callWith (ns path storage : String) (place : Path) : Script :=
  .command (.function (inNamespace ns path) (some (.storage (inNamespace ns storage) place)))

def goto (ns path : String) : Command := .retRun (.function (inNamespace ns path) none)

def jump (ns path : String) : Script := .command (goto ns path)

def trapPath (kind : Trap) : String := "rt/trap/" ++ kind.name

def trap (ns : String) (kind : Trap) : Script := jump ns (trapPath kind)

def stop (v : Int) : Script := .command (.ret (some v))

def readData (ns storage : String) (place : Path) (r : Reg) : Script :=
  .command (.execute [storeIn r] (.getData (inNamespace ns storage) place Binary64.one))

def writeData (ns storage : String) (place : Path) (r : Reg) : Script :=
  .command (.execute
    [.store ⟨.result, .data (inNamespace ns storage) place .int Binary64.one⟩] (.getScore r.score))

def setData (ns storage : String) (place : Path) (v : Nbt) : Script :=
  .command (.setData (inNamespace ns storage) place (.value v))

def framesPath : Path := [.key "stack"]

def topFrame : Path := [.key "stack", .index (-1)]

def frameOf (function : String) : Nbt := .compound [("k", .str function)]

def pushFrame (ns path : String) : Script :=
  .command (.appendData (inNamespace ns "rt") framesPath (.value (frameOf (inNamespace ns path))))

def template (segments : List Segment) : Script := ⟨[.template segments], []⟩

end ScoreWasm.Emit
