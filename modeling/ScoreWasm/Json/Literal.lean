import ScoreWasm.Json.Basic
import ScoreWasm.Number.Shortest
import ScoreWasm.Text.Blank
import ScoreWasm.Text.Quoted

/-!
# Values in messages

A message shows a value with its texts quoted as in other messages, with capital words for truth values
and for nothing, and with a blank after every comma and colon.
-/

namespace ScoreWasm.Json

mutual

def literal : Json → String
  | .null => "None"
  | .bool b => if b then "True" else "False"
  | .int i => toString i
  | .float x => x.text
  | .str s => Text.quoted s
  | .arr items => "[" ++ Text.join ", " (literalItems items) ++ "]"
  | .obj fields => "\x7b" ++ Text.join ", " (literalFields fields) ++ "\x7d"

def literalItems : List Json → List String
  | [] => []
  | v :: rest => literal v :: literalItems rest

def literalFields : List (String × Json) → List String
  | [] => []
  | (k, v) :: rest => (Text.quoted k ++ ": " ++ literal v) :: literalFields rest

end

end ScoreWasm.Json
