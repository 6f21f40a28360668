/-!
# Paths into data

A path is a list of steps, each into a compound by name or into a list by index, negative indices
counting from the end.
-/

namespace ScoreWasm

inductive PathStep where
  | index (i : Int)
  | key (name : String)
  deriving DecidableEq, Repr

/-- A path into data; paths that are read from text are never empty. -/
abbrev Path := List PathStep

def PathStep.text : PathStep → String
  | .index i => toString i
  | .key name => name

def pathText (p : Path) : String := ".".intercalate (p.map PathStep.text)

end ScoreWasm
