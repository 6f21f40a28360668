import ScoreWasm.Cli.Arguments
import ScoreWasm.Json.Basic

/-!
# Arguments as JSON
-/

namespace ScoreWasm.Cli

def orNull {α : Type} (f : α → Json) : Option α → Json
  | some a => f a
  | none => .null

/-- The value of an option that was given; none was if it was cut off. -/
def orEmpty {α : Type} (f : α → Json) : Option α → Json
  | some a => f a
  | none => .arr []

def Arguments.outline (a : Arguments) : Json :=
  let text := orNull (orEmpty Json.str)
  .obj [("input", orNull .str a.input), ("output", text a.output), ("namespace", orEmpty .str a.ns),
    ("budget", orEmpty .int a.budget), ("no_budget", .bool a.noBudget),
    ("max_depth", orEmpty .int a.maxDepth), ("jobs", orEmpty .int a.jobs),
    ("comments", .bool a.comments), ("hosts", text a.hosts), ("dump_cfg", .bool a.dumpCfg),
    ("graphviz", text a.graphviz), ("visualize", text a.visualize),
    ("run", orNull (fun words => .arr (words.map .str)) a.run), ("interpret", .bool a.interpret),
    ("hash", text a.hash), ("diff", orNull (fun (x, y) => .arr [.str x, .str y]) a.diff),
    ("sign", text a.sign), ("verify", text a.verify), ("verbose", .int a.verbose)]

end ScoreWasm.Cli
