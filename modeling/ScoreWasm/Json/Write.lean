import ScoreWasm.Json.Basic
import ScoreWasm.Json.Quote
import ScoreWasm.Number.Shortest

/-!
# Writing JSON

The compact form has no blanks.  The indented form puts every item on a line of its own, two
blanks deeper than its container, with the fields of an object sorted by name.
-/

namespace ScoreWasm.Json

def floatText (x : Binary64) : String :=
  match x.value with
  | .nan _ _ => "NaN"
  | .inf neg => if neg then "-Infinity" else "Infinity"
  | .finite _ _ _ => x.text

mutual

def compactOnto : String → Json → String
  | acc, .null => acc ++ "null"
  | acc, .bool b => acc ++ (if b then "true" else "false")
  | acc, .int i => acc ++ toString i
  | acc, .float x => acc ++ floatText x
  | acc, .str s => quoteOnto acc s
  | acc, .arr items => (itemsOnto (acc.push '[') true items).push ']'
  | acc, .obj fields => (fieldsOnto (acc.push (Char.ofNat 123)) true fields).push (Char.ofNat 125)

def itemsOnto : String → Bool → List Json → String
  | acc, _, [] => acc
  | acc, first, v :: rest =>
    itemsOnto (compactOnto (if first then acc else acc.push ',') v) false rest

def fieldsOnto : String → Bool → List (String × Json) → String
  | acc, _, [] => acc
  | acc, first, (k, v) :: rest =>
    fieldsOnto (compactOnto ((quoteOnto (if first then acc else acc.push ',') k).push ':') v)
      false rest

end

def compact (v : Json) : String := compactOnto "" v

def lineBreak (depth : Nat) : String :=
  "\n" ++ String.ofList (List.replicate (2 * depth) ' ')

/-- Puts written items between brackets, each on its own line. -/
def bracket (open_ close : Char) (depth : Nat) : List String → String
  | [] => String.ofList [open_, close]
  | first :: rest =>
    let body := rest.foldl (fun acc s => acc ++ "," ++ lineBreak (depth + 1) ++ s)
      ((String.ofList [open_]) ++ lineBreak (depth + 1) ++ first)
    (body ++ lineBreak depth).push close

mutual

def indentedAt : Nat → Json → String
  | depth, .arr items => bracket '[' ']' depth (indentedItems (depth + 1) items)
  | depth, .obj fields =>
    let written := Text.sortBy Prod.fst (indentedFields (depth + 1) fields)
    bracket (Char.ofNat 123) (Char.ofNat 125) depth
      (written.map (fun f => quote f.1 ++ ": " ++ f.2))
  | _, v => compact v

def indentedItems : Nat → List Json → List String
  | _, [] => []
  | depth, v :: rest => indentedAt depth v :: indentedItems depth rest

def indentedFields : Nat → List (String × Json) → List (String × String)
  | _, [] => []
  | depth, (k, v) :: rest => (k, indentedAt depth v) :: indentedFields depth rest

end

def indented (v : Json) : String := indentedAt 0 v

end ScoreWasm.Json
