import ScoreWasm.Flow.Calls
import ScoreWasm.Flow.Listing
import ScoreWasm.Wasm.Outline

/-!
# Graphs as JSON

Control-flow graphs and call graphs as JSON values, for tools that look at them.
-/

namespace ScoreWasm.Flow

open Wasm

def typesJson (ts : List ValType) : Json := .arr (ts.map (fun t => .str t.name))

def natsJson (l : List Nat) : Json := .arr (l.map natJson)

def Terminator.kindName : Terminator → String
  | fallthrough _ => "Fallthrough"
  | jump _ _ => "Jump"
  | branchIf _ _ _ => "BranchIf"
  | branchTable _ _ _ => "BranchTable"
  | ret _ => "Return"
  | unreachable _ => "Unreachable"
  | call _ _ _ _ _ _ => "Call"
  | callIndirect _ _ _ _ _ _ _ => "CallIndirect"

def Terminator.parts : Terminator → List Json
  | fallthrough target => [natJson target]
  | jump target back => [natJson target, .bool back]
  | branchIf cond taken other => [.int cond, natJson taken, natJson other]
  | branchTable index targets default => [.int index, natsJson targets, natJson default]
  | ret base => [.int base]
  | unreachable kind => [.str kind.name]
  | call func cont base live params results =>
    [.int func, natJson cont, .int base, typesJson live, typesJson params, typesJson results]
  | callIndirect type table cont base live params results =>
    [.int type, .int table, natJson cont, .int base, typesJson live, typesJson params,
     typesJson results]

/-- What a block holds: text, and for the graph's own instructions their parts too. -/
def BlockInstr.outline (i : BlockInstr) : Json :=
  match i with
  | plain _ => .str i.text
  | move src dst types => .arr [.str i.text, .arr [.int src, .int dst, typesJson types]]
  | resume live results base =>
    .arr [.str i.text, .arr [typesJson live, typesJson results, .int base]]

def Block.outline (b : Block) : Json :=
  .obj [("kind", .str b.kind.name), ("height", .int b.height), ("loop", .bool (b.kind == .loop)),
    ("instrs", .arr (b.instrs.map BlockInstr.outline)),
    ("term", .arr (.str b.term.kindName :: b.term.parts))]

def edgesJson (l : List (Nat × Nat)) : Json := .arr (l.map (fun (a, b) => natsJson [a, b]))

def Graph.outline (m : Module) (g : Graph) : Json :=
  .obj [("func", natJson g.func), ("blocks", .arr (g.blocks.toList.map Block.outline)),
    ("reachable", natsJson g.reachableBlocks), ("back_edges", edgesJson g.backEdges),
    ("edges", edgesJson g.edges), ("loop_headers", natsJson g.loopHeaders),
    ("text", .str (g.text m))]

/-- A graph without what its blocks hold, the edges in order and each once. -/
def Graph.sketch (g : Graph) : Json :=
  let back := g.backEdges
  let edges := (g.edges.mergeSort (fun a b => decide ([a.1, a.2] ≤ [b.1, b.2]))).eraseDups
  .obj [("func", natJson g.func),
    ("nodes", .arr (g.blocks.toList.mapIdx (fun i b => .arr [natJson i, .str b.kind.name,
      .int b.height, natJson b.instrs.length, .str b.term.kindName]))),
    ("edges", .arr (edges.map (fun e =>
      .arr [natJson e.1, natJson e.2, .bool (back.contains e)])))]

def callsJson (m : Module) (graphs : List Graph) : Json :=
  .obj [("cfgs", .arr (graphs.map Graph.sketch)),
    ("nodes", .arr ((List.range m.funcCount).map (fun (f : Nat) =>
      .arr [natJson f, .str (m.functionName f), .bool (m.isImport f)]))),
    ("edges", .arr ((callEdges m).map (fun e =>
      .arr [natJson e.caller, natJson e.callee, .bool e.indirect]))),
    ("recursive", natsJson (recursiveFunctions m))]

end ScoreWasm.Flow
