import ScoreWasm.Command.Phrase
import ScoreWasm.Emit.Script
import ScoreWasm.Host.Basic

/-!
# The host functions that are always there
-/

namespace ScoreWasm.Host

open Wasm Phrase

def env (name : String) (params results : List ValType) (commands : List String)
    (description : String) : Host :=
  ⟨"env", name, params, results, commands, .str description⟩

def storeText (place reg : String) : String :=
  "execute store result storage <ns>:" ++ place ++ " int 1 run scoreboard players get "
    ++ score reg

def scoreComponent (reg : String) : Json :=
  .obj [("score", .obj [("name", .str reg), ("objective", .str objective)])]

def recordWords (fields : List (String × String)) : List String :=
  let blank := Snbt.render (.compound (fields.map (fun (name, _) => (name, .int 0))))
  ("data modify storage <ns>:io out append value " ++ blank)
    :: fields.map (fun (name, reg) => storeText ("io out[-1]." ++ name) reg)

def turtleAxis (axis : String) : Host :=
  env ("turtle_" ++ axis) [.i32] [] [storeText ("rt turtle." ++ axis) "<arg0>"]
    ("set the turtle " ++ axis ++ " coordinate")

def offsetsFrom (regs : List String) : List String :=
  (["x", "y", "z"].zip regs).map (fun (axis, reg) => Phrase.copy ("%td" ++ axis) reg)

def noOffsets : List String :=
  ["x", "y", "z"].map (fun axis => (Command.setScore (Reg.named ("%td" ++ axis)).score 0).render)

def turtleBlock (name path description : String) : Host :=
  env name [] [] (noOffsets ++ [call ("<ns>:rt/turtle/" ++ path)]) description

def turtleBox (name path description : String) : Host :=
  env name [.i32, .i32, .i32] []
    (offsetsFrom ["<arg0>", "<arg1>", "<arg2>"] ++ [call ("<ns>:rt/turtle/" ++ path)]) description

def outOfBoundsIf (condition : String) : String :=
  given [holds condition] (goto ("<ns>:" ++ Emit.trapPath .outOfBounds))

def builtins : List Host :=
  [env "print" [.i32] []
    (("tellraw @a " ++ (scoreComponent "<arg0>").compact) :: recordWords [("lo", "<arg0>")])
    "show an integer in chat and record it in <ns>:io out",
   env "print_i64" [.i64] []
    (("tellraw @a " ++
        (Json.arr [.str "", scoreComponent "<arg0h>", .str ":", scoreComponent "<arg0>"]).compact)
      :: recordWords [("lo", "<arg0>"), ("hi", "<arg0h>")])
    "show the two words of a 64-bit integer and record it in <ns>:io out",
   env "putc" [.i32] []
    ["data modify storage <ns>:io chars append value 0", storeText "io chars[-1]" "<arg0>"]
    "record a character code in <ns>:io chars",
   env "rand" [] [.i32]
    ["execute store result score " ++ score "<result>" ++ " run random value 0..2147483646"]
    "a non-negative random integer",
   turtleAxis "x", turtleAxis "y", turtleAxis "z",
   env "turtle_set_block" [.i32] [] [Phrase.copy "%tb" "<arg0>", call "<ns>:rt/turtle/set"]
    "place a palette block at the turtle position",
   env "turtle_get_block" [] [.i32] [call "<ns>:rt/turtle/get", Phrase.copy "<result>" "%tb"]
    "palette index of the block at the turtle position, or -1",
   env "turtle_fill" [.i32, .i32, .i32, .i32] []
    ([Phrase.copy "%tb" "<arg0>"] ++ offsetsFrom ["<arg1>", "<arg2>", "<arg3>"]
      ++ [call "<ns>:rt/turtle/fill"])
    "fill the box from the turtle to the turtle plus the offsets with a palette block",
   turtleBlock "turtle_copy" "copy" "copy the block at the turtle into the clipboard",
   turtleBlock "turtle_paste" "paste" "paste the clipboard block at the turtle",
   turtleBox "turtle_copy_region" "copy"
    "copy the box from the turtle to the turtle plus the offsets into the clipboard",
   turtleBox "turtle_paste_region_masked" "paste_masked"
    "paste the non-air blocks of a clipboard box at the lower corner of the turtle box",
   env "memset" [.i32, .i32, .i32] [.i32]
    [Phrase.copy "%ma" "<arg0>", Phrase.copy "%m8" "<arg1>", Phrase.copy "%mf" "<arg2>",
     Phrase.copy "%mo" "%membytes",
     operate "%mo" "-=" "%mf", outOfBoundsIf (within "%ma" "..-1"),
     outOfBoundsIf (within "%mf" "..-1"), outOfBoundsIf (compare "%ma" ">" "%mo"),
     call "<ns>:rt/mem/fill", Phrase.copy "<result>" "<arg0>"]
    "set a range of memory bytes to a value and return the start address",
   ⟨"wasi_snapshot_preview1", "proc_exit", [.i32], [],
    [Phrase.copy "%exit" "<arg0>", goto "<ns>:rt/exit"],
    .str "stop the program with an exit code"⟩]

end ScoreWasm.Host
