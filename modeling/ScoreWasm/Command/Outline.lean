import ScoreWasm.Command.Render

/-!
# Commands as JSON

The parts of a command as nested arrays, each one headed by what it is, for tools that look at
commands without reading their text.
-/

namespace ScoreWasm

def textOrNull : Option String → Json
  | some s => .str s
  | none => .null

def intOrNull : Option Int → Json
  | some i => .int i
  | none => .null

def Path.outline (p : Path) : Json :=
  .arr (p.map (fun s => match s with
    | .index i => .int i
    | .key k => .str k))

def Range.outline (r : Range) : List Json := [intOrNull r.lo, intOrNull r.hi]

def BlockPos.outline (p : BlockPos) : Json := .arr [.int p.x, .int p.y, .int p.z]

def blocksJson (blocks : List (BlockPos × String)) : Json :=
  let key (b : BlockPos × String) : List Int := [b.1.x, b.1.y, b.1.z]
  .arr ((blocks.mergeSort (fun a b => decide (key a ≤ key b))).map
    (fun b => .arr ((key b).map .int ++ [.str b.2])))

def Score.outline (s : Score) : List Json := [.str s.holder, .str s.objective]

def Source.outline : Source → Json
  | .value v => .arr [.str "value", v.outline]
  | .words ws => .arr [.str "value", .arr (ws.map .int)]
  | .place id p => .arr [.str "from", .str id, Path.outline p]

/-- A test that must hold, or that must fail if it is negated. -/
def Test.outline (negated : Bool) : Test → Json
  | .within s r => .arr ([.str "matches", .bool negated] ++ s.outline ++ [.arr r.outline])
  | .compare a op b =>
    .arr ([.str "compare", .bool negated] ++ a.outline ++ [.str op.sign] ++ b.outline)
  | .block pos id => .arr [.str "block", .bool negated, pos.outline, .str id]
  | .data id p => .arr [.str "data", .bool negated, .str id, Path.outline p]

def Clause.outline : Clause → Json
  | .holds t => t.outline false
  | .fails t => t.outline true
  | .store s => .arr [.str "store", .str s.mode.name, match s.target with
    | .score c => .arr (.str "score" :: c.outline)
    | .data id p k x => .arr [.str "storage", .str id, Path.outline p, .str k.name, .float x]]

def Arguments.outline : Arguments → Json
  | .storage id p => .arr [.str "storage", .str id, Path.outline p]
  | .inline entries => .arr [.str "inline", (Nbt.compound entries).outline]

def Command.outline : Command → Json
  | .addObjective n => .arr [.str "objective_add", .str n]
  | .setScore s v => .arr ([.str "players_add"] ++ s.outline ++ [.int v, .bool true])
  | .addScore s v => .arr ([.str "players_add"] ++ s.outline ++ [.int v, .bool false])
  | .getScore s => .arr (.str "players_get" :: s.outline)
  | .resetScore h o => .arr [.str "players_reset", .str h, textOrNull o]
  | .operate a op b =>
    .arr ([.str "players_operation"] ++ a.outline ++ [.str op.sign] ++ b.outline)
  | .check cs => .arr [.str "execute", .arr (cs.map Clause.outline), .null]
  | .execute cs c => .arr [.str "execute", .arr (cs.map Clause.outline), c.outline]
  | .function n a =>
    .arr [.str "function", .str n, (a.map Arguments.outline).getD .null]
  | .ret v => .arr [.str "return", intOrNull v]
  | .retRun c => .arr [.str "return_run", c.outline]
  | .getData id p x => .arr [.str "data_get", .str id, Path.outline p, .float x]
  | .removeData id p => .arr [.str "data_remove", .str id, Path.outline p]
  | .setData id p s => .arr [.str "data_set", .str id, Path.outline p, s.outline]
  | .appendData id p s => .arr [.str "data_append", .str id, Path.outline p, s.outline]
  | .schedule n t m => .arr [.str "schedule", .str n, .int t, .str m]
  | .unschedule n => .arr [.str "schedule_clear", .str n]
  | .tell c => .arr [.str "tellraw", c]
  | .random r => .arr (.str "random" :: r.outline)
  | .setBlock p id => .arr [.str "setblock", p.outline, .str id]
  | .fill a b id => .arr [.str "fill", a.outline, b.outline, .str id]
  | .clone a b d m => .arr [.str "clone", a.outline, b.outline, d.outline, .str m.name]

end ScoreWasm
