import ScoreWasm.Command.Fault
import ScoreWasm.Data.Path

/-!
# Why a run stops

A run stops at a line that is no command, at a score that is not set, at the limit on commands, or
because a command cannot be carried out.  The causes at the end have no wording of their own.
-/

namespace ScoreWasm.Machine

inductive Fault where
  | command (f : CommandFault)
  | unsetScore (holder objective : String)
  | limit (name : String) (limit : Int)
  | unknownFunction (name : String)
  | missingArguments (name : String)
  | missingArgument (name key : String)
  | noCompound (name storage : String) (path : Path)
  | unknownObjective (objective : String)
  | unknownOperation (sign : String)
  | cannotStore (storage : String) (path : Path)
  | nothingAt (storage : String) (path : Path)
  | cannotRemove (storage : String) (path : Path)
  | cannotSet (storage : String) (path : Path)
  | cannotAppend (storage : String) (path : Path)
  | delayTooShort
  | tooManyBlocks (verb : String) (limit : Nat)
  | cloneOverlap
  | stopped (entryPoint : String)
  | notFinished (entryPoint : String) (ticks : Int)
  | noExport (name : String)
  | argumentCount (name : String) (expected given : Nat)
  | integerExpected (type : String)
  | unknownComparison (sign : String)
  | missingKey (key : String)
  | wrongType
  | noAttribute
  | outOfRange
  | number (f : Number.Fault)
  | emptyRange (lo hi : Int)
  | tooLarge
  | tooDeep
  deriving DecidableEq, Repr

namespace Fault

def message? : Fault → Option String
  | command f => f.message?
  | unsetScore holder objective => some ("score " ++ holder ++ " " ++ objective ++ " is not set")
  | limit name n => some (name ++ " exceeded the limit of " ++ toString n ++ " commands")
  | unknownFunction name => some ("unknown function " ++ name)
  | missingArguments name => some ("macro function " ++ name ++ " called without arguments")
  | missingArgument name key => some (name ++ ": missing macro argument " ++ Text.quoted key)
  | noCompound name storage path =>
    some ("function " ++ name ++ ": no compound at " ++ storage ++ " " ++ pathText path)
  | unknownObjective objective =>
    some ("unknown scoreboard objective " ++ Text.quoted objective)
  | unknownOperation sign => some ("unknown scoreboard operation " ++ Text.quoted sign)
  | cannotStore storage path => some ("cannot store into " ++ storage ++ " " ++ pathText path)
  | nothingAt storage path => some ("nothing at " ++ storage ++ " " ++ pathText path)
  | cannotRemove storage path => some ("cannot remove " ++ storage ++ " " ++ pathText path)
  | cannotSet storage path => some ("cannot set " ++ storage ++ " " ++ pathText path)
  | cannotAppend storage path => some ("cannot append to " ++ storage ++ " " ++ pathText path)
  | delayTooShort => some "schedule delay must be at least one tick"
  | tooManyBlocks verb n =>
    some ("too many blocks in " ++ verb ++ " region (more than " ++ toString n ++ ")")
  | cloneOverlap => some "clone source and destination overlap"
  | stopped entryPoint => some (entryPoint ++ " stopped without finishing")
  | notFinished entryPoint ticks =>
    some (entryPoint ++ " did not finish within " ++ toString ticks ++ " ticks")
  | noExport name => some ("no exported function " ++ Text.quoted name)
  | argumentCount name expected given =>
    some (name ++ " expects " ++ toString expected ++ " arguments, got " ++ toString given)
  | integerExpected type => some (type ++ " argument must be an integer")
  | unknownComparison _ => none
  | missingKey _ => none
  | wrongType => none
  | noAttribute => none
  | outOfRange => none
  | number _ => none
  | emptyRange _ _ => none
  | tooLarge => none
  | tooDeep => none

/-- The words for a cause, be they its own or those of what was noticed further down.  The name of
something that was not found is quoted. -/
def text : Fault → String
  | command f => f.text
  | noExport name => Text.quoted ((noExport name).message?.getD "")
  | unknownComparison sign => Text.quoted sign
  | missingKey key => Text.quoted key
  | number f => f.text
  | emptyRange lo hi =>
    "empty range for randrange() (" ++ toString lo ++ ", " ++ toString (hi + 1) ++ ", "
      ++ toString (hi + 1 - lo) ++ ")"
  | tooDeep => "maximum recursion depth exceeded"
  | f => f.message?.getD ""

end Fault

end ScoreWasm.Machine
