import ScoreWasm.SoftFloat.Lower
import ScoreWasm.Wasm.Outline

/-!
# Lowering as JSON

The routines that operators need, and the parts of a lowered module, for tools that look at modules.
-/

namespace ScoreWasm.SoftFloat

open Wasm

/-- The routines that operators given by name need, with their types and with what they call.  Names
that need no routine are left out. -/
def routinesJson (names : List String) : Json :=
  let ops := names.filterMap (fun name => match Opcode.named? name with
    | some (.num op) => some op
    | _ => none)
  let routines := required (routinesOf ops)
  .obj [("helpers", .arr (routines.map (fun r => .str r.name))),
    ("types", .arr (routines.map (fun r => .str r.type.text))),
    ("callees", .arr (routines.map (fun r => .arr (r.callees.map (fun c => .str c.name)))))]

def loweredInstr (c : Checked) : Json :=
  .arr [.str c.instr.name, c.instr.operandJson, natJson c.height]

/-- The functions of a lowered module; only those at some positions are shown with their bodies. -/
def loweredFunctions (shown : List Int) (v : Validated) : Json :=
  .arr ((v.module.functions.zip v.bodies).mapIdx (fun i (f, body) =>
    .arr [.int f.type, localsJson f.locals, natJson body.length,
      if shown.contains (i : Int) then .arr (body.map loweredInstr) else .null]))

def loweringParts (shown : List Int) (before after : Validated) : List (String × Json) :=
  [("changed", .bool (lower? before.module).isSome),
   ("types", .arr (after.module.types.map (fun t => .str t.text))),
   ("names", namesJson after.module.names),
   ("functions", loweredFunctions shown after)]

end ScoreWasm.SoftFloat
