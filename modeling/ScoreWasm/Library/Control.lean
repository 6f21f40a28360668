import ScoreWasm.Emit.Script

/-!
# Starting, stopping and trapping

A return goes on where the topmost frame says, which a placeholder makes possible.  A finished program
says so in `%done`; a trap also leaves its code and shows its words.  With a budget, every tick allows
so many jumps back and calls; the one that finds none left parks where it was going and is resumed in
the next tick.
-/

namespace ScoreWasm.Library

open Emit Wasm

abbrev Routine := String × Script

def resumePath : Path := [.key "resume"]

def clearFrames (ns : String) : Script := Emit.setData ns "rt" framesPath (.list #[])

/-- The command that goes on where a place of the storage says. -/
def followCommand (ns : String) (place : Path) : Command :=
  .retRun (.function (inNamespace ns "rt/return") (some (.storage (inNamespace ns "rt") place)))

def controlRoutines (ns : String) (budget : Option Int) : List Routine :=
  let budgeted (f : Int → Script) : Script := (budget.map f).getD .empty
  [("rt/return", template [.text "return run function ", .hole "k"]),
   ("rt/finish", .join [.command (.removeData (inNamespace ns "rt") topFrame), set "%done" 1]),
   ("rt/exit", .join [clearFrames ns, set "%done" 1]),
   ("rt/reset", .join [set "%trap" 0, set "%done" 0, set "%exit" 0, set "%depth" 0,
      budgeted (fun b => .join [set "%budget" b,
        .command (.unschedule (inNamespace ns "rt/resume"))]),
      clearFrames ns])]
    ++ match budget with
      | none => []
      | some b =>
        [("rt/tick", set "%budget" b),
         ("rt/resume", .command (followCommand ns resumePath))]

def trapMessage (kind : Trap) : Json :=
  .obj [("text", .str ("wasm trap: " ++ kind.words)), ("color", .str "red")]

def trapRoutines : List Routine :=
  Trap.all.map (fun kind => (trapPath kind,
    .join [set "%trap" kind.code, set "%done" 1, .command (.tell (trapMessage kind))]))

end ScoreWasm.Library
