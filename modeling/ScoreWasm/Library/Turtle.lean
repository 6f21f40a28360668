import ScoreWasm.Library.Control
import ScoreWasm.Turtle.Palette

/-!
# The turtle

The turtle has a position and a block in a storage.  Boxes reach from its position to the position
plus the offsets `%tdx`, `%tdy`, `%tdz`; `rt/turtle/span` works out the far corner of the turtle's box,
its lower corner, and the far corner of the clipboard's.
-/

namespace ScoreWasm.Library

open Emit Turtle

def turtlePath : Path := [.key "turtle"]

def turtleField (name : String) : Path := turtlePath ++ [.key name]

def withTurtle (ns path : String) : Script := callWith ns path "rt" turtlePath

def stopUnlessPalette : Script :=
  given [outside "%tb" (.between 0 (palette.length - 1))] (stop 0)

def holes : List String → List Segment
  | [] => []
  | [name] => [.hole name]
  | name :: rest => .hole name :: .text " " :: holes rest

def turtleBlockRoutines (ns : String) : List Routine :=
  [("rt/turtle/select", .join (palette.mapIdx (fun i block =>
      given [is "%tb" i] (Emit.setData ns "rt" (turtleField "block") (.str block))))),
   ("rt/turtle/set", .join [
      stopUnlessPalette, call ns "rt/turtle/select", withTurtle ns "rt/turtle/place"]),
   ("rt/turtle/place", template (.text "setblock " :: holes ["x", "y", "z", "block"])),
   ("rt/turtle/get", .join [set "%tb" (-1), withTurtle ns "rt/turtle/probe"]),
   ("rt/turtle/probe", .join (palette.mapIdx (fun i block =>
      template (.text "execute if block " :: holes ["x", "y", "z"]
        ++ [.text (" " ++ block ++ " run return run "
          ++ (Command.setScore (Reg.score "%tb") i).render)]))))]

def spanAxis (ns axis : String) (origin : Int) : Script :=
  let offset : Reg := .named ("%td" ++ axis)
  .join [
    readData ns "rt" (turtleField axis) "%ta",
    copy "%te" "%ta", operate "%te" .add offset,
    writeData ns "rt" (turtleField ("e" ++ axis)) "%te",
    operate "%ta" .min "%te",
    writeData ns "rt" (turtleField ("l" ++ axis)) "%ta",
    given [isNegative offset] (operate offset .mul (const (-1))),
    set "%te" origin, operate "%te" .add offset,
    writeData ns "rt" (turtleField ("c" ++ axis)) "%te"]

def clipboardText : String := " ".intercalate (clipboard.map (fun (_, v) => toString v))

def onBox (ns path : String) : Script := call ns "rt/turtle/span" ++ withTurtle ns path

def pasteRoutines (ns path : String) (mode : CloneMode) : List Routine :=
  [("rt/turtle/" ++ path, onBox ns ("rt/turtle/" ++ path ++ "_region")),
   ("rt/turtle/" ++ path ++ "_region", template
      (.text ("clone " ++ clipboardText ++ " ") :: holes ["cx", "cy", "cz", "lx", "ly", "lz"]
        ++ [.text (" " ++ mode.name)]))]

def turtleBoxRoutines (ns : String) : List Routine :=
  [("rt/turtle/span", .join (clipboard.map (fun (axis, origin) => spanAxis ns axis origin))),
   ("rt/turtle/fill", .join [
      stopUnlessPalette, call ns "rt/turtle/select", onBox ns "rt/turtle/fill_region"]),
   ("rt/turtle/fill_region", template
      (.text "fill " :: holes ["x", "y", "z", "ex", "ey", "ez", "block"])),
   ("rt/turtle/copy", onBox ns "rt/turtle/copy_region"),
   ("rt/turtle/copy_region", template
      (.text "clone " :: holes ["x", "y", "z", "ex", "ey", "ez"]
        ++ [.text (" " ++ clipboardText)]))]
    ++ pasteRoutines ns "paste" .replace ++ pasteRoutines ns "paste_masked" .masked

end ScoreWasm.Library
