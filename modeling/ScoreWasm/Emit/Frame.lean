import ScoreWasm.Emit.Script
import ScoreWasm.Wasm.Types

/-!
# Frames

Before a call the caller's locals and the operands that the call leaves alone go into the frame of the
call, each word under a name of its own, and come back from there afterwards.
-/

namespace ScoreWasm.Emit

open Wasm

def wordsOf (r : Reg) (field : String) (t : ValType) : List (Reg × String) :=
  (r, field) :: (if t.isWide then [(r.high, field ++ "h")] else [])

/-- The registers that a function keeps across a call, with their fields. -/
def frameFields (locals live : List ValType) : List (Reg × String) :=
  (locals.mapIdx (fun i t => wordsOf (.localVar i) ("l" ++ toString i) t)).flatten
    ++ (live.mapIdx (fun i t => wordsOf (.slot i) ("s" ++ toString i) t)).flatten

def framePath (field : String) : Path := topFrame ++ [.key field]

def saveFields (ns : String) (fields : List (Reg × String)) : Script :=
  .join (fields.map (fun (r, field) => writeData ns "rt" (framePath field) r))

def restoreFields (ns : String) (fields : List (Reg × String)) : Script :=
  .join (fields.map (fun (r, field) => readData ns "rt" (framePath field) r))

end ScoreWasm.Emit
