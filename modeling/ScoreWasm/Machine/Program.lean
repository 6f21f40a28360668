import ScoreWasm.Machine.World

/-!
# Programs

A program is a set of functions with the names of those to run on load and on every tick, and a
manifest that describes its exported functions.  The manifest and the names may come from files that
anybody wrote, so they are JSON values and are looked at only when they are needed.  Lines are read
once, when the program is made; a line that is no command stops the run only when it is reached.
-/

namespace ScoreWasm.Machine

open Std

/-- A line ready to run: its text with the command it stands for, or a template. -/
inductive Step where
  | command (line : String) (c : Except CommandFault Command)
  | template (segments : List Segment)

/-- The steps of a line: none for blank lines and comments. -/
def Step.ofLine : Line → Option Step
  | .command c => some (.command c.render (.ok c))
  | .template segments => some (.template segments)
  | .text s =>
    match s.toList with
    | [] => none
    | '#' :: _ => none
    | _ => some (.command s (parseCommand s))

structure Function where
  steps : List Step
  needsArguments : Bool

def Function.ofLines (lines : List Line) : Function :=
  ⟨lines.filterMap Step.ofLine,
   lines.any (fun line => match line with | .template _ => true | _ => false)⟩

/-- `draws` is the stream that random values are taken from, one number a value. -/
structure Program where
  namespaceName : String
  functions : HashMap String Function
  manifest : Json
  load : List Json
  tick : List Json
  maxCommands : Int
  strict : Bool
  draws : Nat → Nat := fun _ => 0

end ScoreWasm.Machine
