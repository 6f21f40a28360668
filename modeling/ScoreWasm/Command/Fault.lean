import ScoreWasm.Data.Snbt
import ScoreWasm.Json.Read

/-!
# Why a line is not a command

Each cause that is found by looking at the words of the line has its wording in
`CommandFault.message?`.  The others are noticed further down: a word is missing, an array is not
closed, a number or a JSON text is malformed, a number is too large to be a count of ticks, or something
is nested too deep.
-/

namespace ScoreWasm

inductive CommandFault where
  | unsupported (line : String)
  | notStorage (line : String)
  | condition (line : String)
  | storeMode (mode : String)
  | storeTarget (line : String)
  | subcommand (word : String)
  | notInteger (token : String)
  | badPath (text : String)
  | emptyPath
  | data (issue : Snbt.Issue) (pos : Nat) (text : String)
  | missingWord
  | unclosedArray
  | number (f : Number.Fault)
  | json (f : Json.Fault)
  | tooLarge
  | tooDeep
  deriving DecidableEq, Repr

namespace CommandFault

def message? : CommandFault → Option String
  | unsupported line => some ("unsupported command: " ++ line)
  | notStorage line => some ("only storage targets are supported: " ++ line)
  | condition line => some ("unsupported execute condition: " ++ line)
  | storeMode mode => some ("unsupported execute store mode " ++ Text.quoted mode)
  | storeTarget line => some ("unsupported execute store target: " ++ line)
  | subcommand word => some ("unsupported execute subcommand " ++ Text.quoted word)
  | notInteger token => some ("expected an integer, found " ++ Text.quoted token)
  | badPath text => some ("unsupported NBT path " ++ Text.quoted text)
  | emptyPath => some "empty NBT path"
  | data issue pos text =>
    some (issue.text ++ " at " ++ toString pos ++ " in SNBT " ++ Text.quoted (Text.take 60 text))
  | missingWord => none
  | unclosedArray => none
  | number _ => none
  | json _ => none
  | tooLarge => none
  | tooDeep => none

/-- The words for a cause, be they its own or those of what was noticed further down. -/
def text : CommandFault → String
  | unclosedArray => "substring not found"
  | number f => f.text
  | json f => f.text
  | tooDeep => "maximum recursion depth exceeded"
  | f => f.message?.getD ""

end CommandFault

end ScoreWasm
