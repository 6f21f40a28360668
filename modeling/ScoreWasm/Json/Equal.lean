import ScoreWasm.Json.Basic
import ScoreWasm.Text.Code

/-!
# When JSON values are equal, and how they are ordered

Numbers are equal by their values, whether they are written with or without a fraction, and truth values
count as the numbers one and zero.  The order of fields does not matter.  Only two numbers or two texts are
ordered.
-/

namespace ScoreWasm.Json

def numberEquals : Json → Json → Bool
  | .bool a, .bool b => a == b
  | .bool a, .int j => j == a.toInt
  | .int i, .bool b => i == b.toInt
  | .bool a, .float y => y.isInt a.toInt
  | .float x, .bool b => x.isInt b.toInt
  | .int i, .int j => i == j
  | .int i, .float y => y.isInt i
  | .float x, .int j => x.isInt j
  | .float x, .float y => x.equals y
  | _, _ => false

mutual

/-- Whether a part of a value equals another: here NaN equals itself. -/
def partEquals : Json → Json → Bool
  | .null, .null => true
  | .str s, .str t => s == t
  | .arr as, .arr bs => itemsEqual as bs
  | .obj as, .obj bs => as.length == bs.length && fieldsEqual as bs
  | .float x, .float y => x.isNaN && y.isNaN || x.equals y
  | a, b => numberEquals a b

def itemsEqual : List Json → List Json → Bool
  | [], [] => true
  | a :: as, b :: bs => partEquals a b && itemsEqual as bs
  | _, _ => false

def fieldsEqual : List (String × Json) → List (String × Json) → Bool
  | [], _ => true
  | (k, a) :: rest, bs =>
    (match bs.lookup k with
    | some b => partEquals a b
    | none => false) && fieldsEqual rest bs

end

def equals : Json → Json → Bool
  | .float x, .float y => x.equals y
  | a, b => partEquals a b

/-- A number as `m · 2 ^ e`.  An infinity is given an exponent above those of all numbers that can be
written. -/
def dyadic? : Json → Option (Int × Int)
  | .int i => some (i, 0)
  | .bool b => some (b.toInt, 0)
  | .float x =>
    match x.value with
    | .finite neg m e => some (if neg then -m else m, e)
    | .inf neg => some (if neg then -1 else 1, 100000)
    | .nan _ _ => none
  | _ => none

/-- Whether a value comes before another or is level with it, if they can be ordered. -/
def atMost? : Json → Json → Option Bool
  | .str s, .str t => some (decide (Text.codes s ≤ Text.codes t))
  | a, b =>
    match dyadic? a, dyadic? b with
    | some (m, e), some (n, d) =>
      let low := min e d
      some (decide (m * 2 ^ (e - low).toNat ≤ n * 2 ^ (d - low).toNat))
    | _, _ => none

def sorted? (items : List Json) : Option (List Json) :=
  if items.length < 2 || items.all (fun a => (items.headD .null).atMost? a |>.isSome) then
    some (items.mergeSort (fun a b => (a.atMost? b).getD true))
  else none

end ScoreWasm.Json
