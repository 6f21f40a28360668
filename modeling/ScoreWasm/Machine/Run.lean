import ScoreWasm.Json.Literal
import ScoreWasm.Machine.Exec

/-!
# Running functions

Functions run on a list of frames.  A tail entry replaces the running frame, any other entry goes on
top of it, and a frame that ends hands its outcome to the stores it was entered with.  The number of
commands that one run may take is bounded, and the loop recurses on what is left of it.
-/

namespace ScoreWasm.Machine

structure Frame where
  name : String
  steps : List Step
  args : Option Entries
  stores : List Store

def holeText : Json → String
  | .str s => s
  | v => Snbt.write v

/-- The argument under a name: an object has it or lacks it.  A text or an array that happens to hold the
name still has nothing under it, and other values cannot be asked. -/
def namedArgument (function key : String) : Json → Run Json
  | .obj fields =>
    match Nbt.named? key fields with
    | some v => return v
    | none => throw (.missingArgument function key)
  | .arr items =>
    if items.any (fun v => v.str? == some key) then throw .wrongType
    else throw (.missingArgument function key)
  | .str s =>
    if (Text.cutAt? key s).isSome then throw .wrongType else throw (.missingArgument function key)
  | _ => throw .wrongType

def argumentNow (function key : String) : Entries → Run Json
  | .value v => namedArgument function key v
  | .stored a => do
    match (← get).heap.get? a with
    | some (.compound entries) =>
      match Nbt.named? key entries with
      | some d => return (← treeOf d).outline
      | none => throw (.missingArgument function key)
    | _ => throw .wrongType

def fillTemplate (name : String) (args : Entries) : List Segment → String → Run String
  | [], acc => return acc
  | .text s :: rest, acc => fillTemplate name args rest (acc ++ s)
  | .hole key :: rest, acc => do
    let v ← argumentNow name key args
    fillTemplate name args rest (acc ++ holeText v)

def enter (p : Program) (name : String) (args : Option Entries) (stores : List Store) :
    Run Frame := do
  match p.functions[name]? with
  | none => throw (.unknownFunction name)
  | some f =>
    if args.isNone && f.needsArguments then throw (.missingArguments name)
    modify (fun w => { w with entered := w.entered.insert name (w.timesEntered name + 1) })
    return ⟨name, f.steps, args, stores⟩

/-- Removes the frames at the top that have ended, each without a result. -/
def settle (strict : Bool) : List Frame → Run (List Frame)
  | [] => return []
  | frame :: below =>
    match frame.steps with
    | [] => do
      applyStores strict frame.stores none
      settle strict below
    | _ :: _ => return frame :: below

/-- Takes the next command: its line, the command as read, the frame it belongs to with the rest of its steps,
and the frames below.  The command counts from here on. -/
def fetch (strict : Bool) (frames : List Frame) :
    Run (Option (String × Except CommandFault Command × Frame × List Frame)) := do
  match ← settle strict frames with
  | [] => return none
  | frame :: below =>
    match frame.steps with
    | [] => return none
    | step :: rest =>
      let (line, c) ← match step with
        | .command line c => pure (line, c)
        | .template segments => do
          let line ← fillTemplate frame.name (frame.args.getD (.value (.obj []))) segments ""
          pure (line, parseCommand line)
      modify (fun w => { w with commands := w.commands + 1 })
      return some (line, c, { frame with steps := rest }, below)

def readable : Except CommandFault Command → Run Command
  | .ok c => return c
  | .error f => throw (.command f)

/-- Runs frames to their end, with a number of commands at most.  `value` is the result of the last
function that returned. -/
def loop (p : Program) (top : String) :
    Nat → List Frame → Option Int → Run (Option Int)
  | 0, frames, value => do
    match ← fetch p.strict frames with
    | none => return value
    | some _ => throw (.limit top p.maxCommands)
  | fuel + 1, frames, value => do
    match ← fetch p.strict frames with
    | none => return value
    | some (line, c, frame, below) =>
      let out ← exec p line (← readable c)
      match out.control with
      | .next => loop p top fuel (frame :: below) value
      | .ret v =>
        applyStores p.strict frame.stores v
        loop p top fuel below v
      | .invoke call =>
        if call.tail then
          let entered ← enter p call.name call.args frame.stores
          loop p top fuel (entered :: below) value
        else
          let entered ← enter p call.name call.args call.stores
          loop p top fuel (entered :: frame :: below) value

def runFunction (p : Program) (name : String) (args : Option Entries) : Run (Option Int) := do
  let frame ← enter p name args []
  loop p name p.maxCommands.toNat [frame] (some 0)

def runCommand (p : Program) (line : String) : Run (Option Int) := do
  let out ← exec p line (← readable (parseCommand line))
  match out.control with
  | .invoke call => runFunction p call.name call.args
  | _ => return out.value

/-- The function that a value names: only texts do. -/
def functionNamed : Json → Run String
  | .str name => return name
  | .arr _ => throw .wrongType
  | .obj _ => throw .wrongType
  | v => throw (.unknownFunction v.literal)

def runNamed (p : Program) (name : Json) (args : Option Entries) : Run (Option Int) := do
  runFunction p (← functionNamed name) args

def runAll (p : Program) (names : List Json) : Run Unit :=
  names.forM (fun name => discard (runNamed p name none))

def reload (p : Program) : Run Unit := runAll p p.load

/-- Advances one tick: the functions of every tick first, then the scheduled calls that are due. -/
def tick (p : Program) : Run Unit := do
  modify (fun w => { w with time := w.time + 1 })
  runAll p p.tick
  let w ← get
  let due := w.scheduled.filter (fun s => s.time ≤ w.time)
  modify (fun w => { w with scheduled := w.scheduled.filter (fun s => w.time < s.time) })
  runAll p (due.map (fun s => .str s.name))

end ScoreWasm.Machine
