import ScoreWasm.Command.Basic

/-!
# Registers

A compiled program keeps every word that it works on under one objective of the scoreboard.  The
holder's name tells what the word is: an operand slot, a local, a global, a result or an argument, a
constant, or a register with a name of its own.  The high word of a 64-bit value has the name of the
low one with an `h` behind it.
-/

namespace ScoreWasm

/-- The objective under which a program keeps its registers. -/
def objective : String := "wasm"

inductive Reg where
  | slot (depth : Int)
  | localVar (i : Int)
  | globalVar (i : Int)
  | result (i : Int)
  | arg (i : Int)
  | const (value : Int)
  | named (name : String)
  | high (r : Reg)
  deriving DecidableEq, Repr

namespace Reg

def slotMark : String := "%s"

def localMark : String := "%l"

def globalMark : String := "%g"

def resultMark : String := "%r"

def argMark : String := "%arg"

def name : Reg → String
  | slot depth => slotMark ++ toString depth
  | localVar i => localMark ++ toString i
  | globalVar i => globalMark ++ toString i
  | result i => resultMark ++ toString i
  | arg i => argMark ++ toString i
  | const value => "%c" ++ toString value
  | named name => name
  | high r => r.name ++ "h"

def score (r : Reg) : Score := ⟨r.name, objective⟩

/-- The constant that a register holds for the whole run, as a list of at most one. -/
def constants : Reg → List Int
  | const value => [value]
  | _ => []

def word (r : Reg) (isHigh : Bool) : Reg := if isHigh then high r else r

instance : Coe String Reg := ⟨named⟩

end Reg

end ScoreWasm
