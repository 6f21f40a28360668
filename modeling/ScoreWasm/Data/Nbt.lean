import ScoreWasm.Number.Binary64

/-!
# Tagged data

The data that a storage holds: integers, floating-point numbers, strings, lists and compounds.
A compound keeps its entries in the order in which they were first written.
-/

namespace ScoreWasm

inductive Nbt where
  | int (i : Int)
  | float (x : Binary64)
  | str (s : String)
  | list (items : Array Nbt)
  | compound (entries : List (String × Nbt))
  deriving Inhabited

namespace Nbt

def named? {α : Type} (name : String) : List (String × α) → Option α
  | [] => none
  | (k, v) :: rest => if k == name then some v else named? name rest

/-- Sets an entry: a known name keeps its place, a new one goes to the end. -/
def setEntry {α : Type} (name : String) (v : α) : List (String × α) → List (String × α)
  | [] => [(name, v)]
  | (k, old) :: rest => if k == name then (k, v) :: rest else (k, old) :: setEntry name v rest

def eraseEntry {α : Type} (name : String) : List (String × α) → List (String × α)
  | [] => []
  | (k, v) :: rest => if k == name then rest else (k, v) :: eraseEntry name rest

def isContainer : Nbt → Bool
  | .list _ => true
  | .compound _ => true
  | _ => false

def ints (is : List Int) : Nbt := .list (is.map Nbt.int).toArray

end Nbt

end ScoreWasm
