import ScoreWasm.Command.Basic
import ScoreWasm.Data.Snbt
import ScoreWasm.Json.Write

/-!
# Commands as text
-/

namespace ScoreWasm

def Score.render (s : Score) : String := s.holder ++ " " ++ s.objective

/-- The text of a range; a range of one number is that number. -/
def Range.render (r : Range) : String :=
  match r.lo, r.hi with
  | some lo, some hi => if lo == hi then toString lo else toString lo ++ ".." ++ toString hi
  | some lo, none => toString lo ++ ".."
  | none, some hi => ".." ++ toString hi
  | none, none => ".."

def ScoreOp.sign : ScoreOp → String
  | assign => "="
  | add => "+="
  | sub => "-="
  | mul => "*="
  | div => "/="
  | mod => "%="
  | min => "<"
  | max => ">"
  | swap => "><"
  | other s => s

def Comparison.sign : Comparison → String
  | lt => "<"
  | le => "<="
  | eq => "="
  | gt => ">"
  | ge => ">="
  | other s => s

/-- The text of a path: names separated by points, indices in brackets. -/
def renderPath (p : Path) : String :=
  p.foldl (fun acc step => match step with
    | .index i => acc ++ "[" ++ toString i ++ "]"
    | .key name => if acc.isEmpty then name else acc ++ "." ++ name) ""

def BlockPos.render (p : BlockPos) : String :=
  toString p.x ++ " " ++ toString p.y ++ " " ++ toString p.z

def StoreKind.name : StoreKind → String
  | byte => "byte"
  | short => "short"
  | int => "int"
  | long => "long"
  | other n => n

/-- The text of a scale: whole numbers without a fraction. -/
def renderScale (x : Binary64) : String :=
  if x == Binary64.one then "1" else x.text

def Test.render : Test → String
  | within s range => "score " ++ s.render ++ " matches " ++ range.render
  | compare a op b => "score " ++ a.render ++ " " ++ op.sign ++ " " ++ b.render
  | block pos id => "block " ++ pos.render ++ " " ++ id
  | data storage path => "data storage " ++ storage ++ " " ++ renderPath path

def StoreMode.name : StoreMode → String
  | result => "result"
  | success => "success"

def Store.render (s : Store) : String :=
  "store " ++ s.mode.name ++ match s.target with
    | .score c => " score " ++ c.render
    | .data storage path kind scale =>
      " storage " ++ storage ++ " " ++ renderPath path ++ " " ++ kind.name ++ " " ++
        renderScale scale

def Clause.render : Clause → String
  | holds t => "if " ++ t.render
  | fails t => "unless " ++ t.render
  | store s => s.render

def renderClauses (clauses : List Clause) : String :=
  " ".intercalate (clauses.map Clause.render)

def Source.render : Source → String
  | value v => "value " ++ Snbt.render v
  | words ws => "value [I;" ++ ",".intercalate (ws.map toString) ++ "]"
  | place storage path => "from storage " ++ storage ++ " " ++ renderPath path

def Arguments.render : Arguments → String
  | storage id path => "with storage " ++ id ++ " " ++ renderPath path
  | inline entries => Snbt.render (.compound entries)

def CloneMode.name : CloneMode → String
  | replace => "replace"
  | masked => "masked"

def Command.render : Command → String
  | addObjective name => "scoreboard objectives add " ++ name ++ " dummy"
  | setScore s v => "scoreboard players set " ++ s.render ++ " " ++ toString v
  | addScore s n =>
    if n < 0 then "scoreboard players remove " ++ s.render ++ " " ++ toString (-n)
    else "scoreboard players add " ++ s.render ++ " " ++ toString n
  | getScore s => "scoreboard players get " ++ s.render
  | resetScore holder none => "scoreboard players reset " ++ holder
  | resetScore holder (some objective) => "scoreboard players reset " ++ holder ++ " " ++ objective
  | operate target op source =>
    "scoreboard players operation " ++ target.render ++ " " ++ op.sign ++ " " ++ source.render
  | check clauses => "execute " ++ renderClauses clauses
  | execute clauses body => "execute " ++ renderClauses clauses ++ " run " ++ body.render
  | function name none => "function " ++ name
  | function name (some args) => "function " ++ name ++ " " ++ args.render
  | ret none => "return fail"
  | ret (some v) => "return " ++ toString v
  | retRun body => "return run " ++ body.render
  | getData storage path scale =>
    "data get storage " ++ storage ++ " " ++ renderPath path ++
      (if scale == Binary64.one then "" else " " ++ renderScale scale)
  | removeData storage path => "data remove storage " ++ storage ++ " " ++ renderPath path
  | setData storage path source =>
    "data modify storage " ++ storage ++ " " ++ renderPath path ++ " set " ++ source.render
  | appendData storage path source =>
    "data modify storage " ++ storage ++ " " ++ renderPath path ++ " append " ++ source.render
  | schedule name ticks mode =>
    "schedule function " ++ name ++ " " ++ toString ticks ++ "t " ++ mode
  | unschedule name => "schedule clear " ++ name
  | tell component => "tellraw @a " ++ component.compact
  | random range => "random value " ++ range.render
  | setBlock pos id => "setblock " ++ pos.render ++ " " ++ id
  | fill a b id => "fill " ++ a.render ++ " " ++ b.render ++ " " ++ id
  | clone a b dest mode =>
    "clone " ++ a.render ++ " " ++ b.render ++ " " ++ dest.render ++ " " ++ mode.name

end ScoreWasm
