import ScoreWasm.Library.FloatOrder
import ScoreWasm.Library.Int64
import ScoreWasm.Library.Memory
import ScoreWasm.Library.Turtle

/-!
# The library of a program

The functions under `rt/` that every compiled program brings along.
-/

namespace ScoreWasm.Library

open Emit

def routines (ns : String) (budget : Option Int) (tables : Nat) : List Routine :=
  controlRoutines ns budget ++ trapRoutines
    ++ divisionRoutines ns ++ bitwiseRoutines ++ shiftRoutines ns ++ countRoutines
    ++ multiplyRoutines ns ++ wideDivisionRoutines ns ++ wideShiftRoutines ns ++ wideCountRoutines ns
    ++ [singleOrderRoutine, doubleOrderRoutine]
    ++ wordRoutines ns ++ loadRoutines ns ++ storeRoutines ns ++ fillRoutines ns ++ growRoutines ns
    ++ (List.range tables).map (tableRoutine ns)
    ++ turtleBlockRoutines ns ++ turtleBoxRoutines ns

end ScoreWasm.Library
