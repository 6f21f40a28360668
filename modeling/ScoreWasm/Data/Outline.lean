import ScoreWasm.Data.Nbt
import ScoreWasm.Json.Basic

/-!
# Stored data as JSON
-/

namespace ScoreWasm.Nbt

mutual

def outline : Nbt → Json
  | .int i => .int i
  | .float x => .float x
  | .str s => .str s
  | .list ⟨items⟩ => .arr (outlineItems items)
  | .compound entries => .obj (outlineEntries entries)

def outlineItems : List Nbt → List Json
  | [] => []
  | v :: rest => outline v :: outlineItems rest

def outlineEntries : List (String × Nbt) → List (String × Json)
  | [] => []
  | (k, v) :: rest => (k, outline v) :: outlineEntries rest

end

end ScoreWasm.Nbt
