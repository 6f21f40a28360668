import ScoreWasm.Cli.Help
import ScoreWasm.Cli.Run

/-!
# The program

Reads the files that the command line names, does what it asks for, and writes back what has changed.
-/

namespace ScoreWasm.Main

open Files

partial def gather (path : String) : IO (List (String × ByteArray)) := do
  let place ← IO.FS.realPath path
  if ← place.isDir then
    let entries ← place.readDir
    return (← entries.toList.mapM (fun e => gather (child path e.fileName))).flatten
  else if ← place.pathExists then return [(normalize path, ← IO.FS.readBinFile path)]
  else return []

/-- The paths that arguments name, as the system knows them. -/
def named (a : Cli.Arguments) : List String :=
  let packs := match a.diff with
    | some (before, after) => [before, after]
    | none => []
  (packs ++ [a.input, a.hosts.join, a.hash.join, a.sign.join, a.verify.join].filterMap Cli.asked).map
    Text.plain

/-- The session in a working directory in which files are to be found. -/
def sessionOf (home : String) (files : List (String × ByteArray)) : Session :=
  match (files.forM (fun (path, bytes) => putFile (Text.coded path) bytes)).run
    ⟨.atHome (parts (Text.coded home)).reverse, ""⟩ with
  | .ok _ s => s
  | .error _ s => s

def store (before after : Tree) : IO Unit := do
  let known := before.below []
  for (path, bytes) in after.below [] do
    if !known.any (fun f => f.1 == path && f.2.toList == bytes.toList) then
      let place := "/" ++ Text.plain path
      IO.FS.createDirAll (parent place)
      IO.FS.writeBinFile place bytes

end ScoreWasm.Main

def main (words : List String) : IO UInt32 := do
  match ScoreWasm.Cli.Arguments.parse (words.map ScoreWasm.Text.coded) with
  | .error e =>
    IO.print e.output
    if e == .misuse then IO.eprintln ("\n".intercalate ScoreWasm.Cli.usageLines)
    return UInt32.ofNat e.status
  | .ok a =>
    let found ← (ScoreWasm.Main.named a).mapM ScoreWasm.Main.gather
    let session := ScoreWasm.Main.sessionOf (← IO.currentDir).toString found.flatten
    match (ScoreWasm.Cli.perform a).run session with
    | .ok status s =>
      IO.print (ScoreWasm.Text.plain s.out)
      ScoreWasm.Main.store session.files s.files
      return UInt32.ofNat status
    | .error t s =>
      IO.print (ScoreWasm.Text.plain s.out)
      IO.eprintln (ScoreWasm.Text.plain t.text)
      return 1
