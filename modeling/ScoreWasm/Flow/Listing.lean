import ScoreWasm.Flow.Graph
import ScoreWasm.Wasm.Flat

/-!
# The text of a graph
-/

namespace ScoreWasm.Flow

open Wasm

def blockRef (b : Nat) : String := "b" ++ toString b

def Terminator.text : Terminator → String
  | fallthrough target => "fallthrough " ++ blockRef target
  | jump target back => "jump " ++ blockRef target ++ (if back then " (back edge)" else "")
  | branchIf cond taken other =>
    "br_if %s" ++ toString cond ++ " ? " ++ blockRef taken ++ " : " ++ blockRef other
  | branchTable index targets default =>
    "br_table %s" ++ toString index ++ " [" ++ " ".intercalate (targets.map blockRef)
      ++ "] default " ++ blockRef default
  | ret base => "return from %s" ++ toString base
  | unreachable kind =>
    if kind == .unreachable then "unreachable" else "trap " ++ kind.name
  | call func cont _ live _ _ =>
    "call f" ++ toString func ++ " -> " ++ blockRef cont ++ " (live " ++ toString live.length ++ ")"
  | callIndirect type _ cont _ live _ _ =>
    "call_indirect type " ++ toString type ++ " -> " ++ blockRef cont ++ " (live "
      ++ toString live.length ++ ")"

def BlockInstr.text : BlockInstr → String
  | plain c => (Flat.render? c.instr).getD c.instr.name
  | move _ _ _ => "stack.move"
  | resume _ _ _ => "call.resume"

def Block.lines (index : Nat) (reachable : Bool) (b : Block) : List String :=
  ["  " ++ blockRef index ++ " [" ++ b.kind.name ++ "] height=" ++ toString b.height
      ++ (if reachable then "" else "  (unreachable)")]
    ++ b.instrs.map (fun i => "      " ++ i.text) ++ ["      => " ++ b.term.text]

def Graph.lines (m : Module) (g : Graph) : List String :=
  let seen := g.reachable
  ("f" ++ toString g.func ++ " " ++ m.functionName g.func ++ " " ++ g.type.text)
    :: (g.blocks.toList.mapIdx (fun i b => b.lines i (seen.getD i false))).flatten

def Graph.text (m : Module) (g : Graph) : String := "\n".intercalate (g.lines m)

end ScoreWasm.Flow
