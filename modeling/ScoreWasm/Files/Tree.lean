import ScoreWasm.Files.Path
import ScoreWasm.Text.Utf8
import Std.Data.HashMap

/-!
# File trees

The files and directories that a program can see.  Each stands at a location: the names on the way to it,
the innermost first.  A path is followed from directory to directory, and everything on the way has to be
one.
-/

namespace ScoreWasm.Files

open Std

/-- The names on the way to a file or directory, the innermost first. -/
abbrev Location := List String

inductive Node where
  | directory
  | file (bytes : ByteArray)

inductive Obstacle where
  | missing
  | notDirectory
  | nameTooLong
  deriving DecidableEq, Repr

/-- Files and directories by their locations, and the working directory, from which paths start that do
not start at the root. -/
structure Tree where
  home : Location
  nodes : HashMap Location Node

namespace Tree

def upwards : Location → List Location
  | [] => [[]]
  | name :: above => (name :: above) :: upwards above

def atHome (home : Location) : Tree :=
  ⟨home, HashMap.ofList ((upwards home).map (fun l => (l, .directory)))⟩

def get? (t : Tree) (l : Location) : Option Node := t.nodes[l]?

def put (t : Tree) (l : Location) (n : Node) : Tree := { t with nodes := t.nodes.insert l n }

def erase (t : Tree) (l : Location) : Tree := { t with nodes := t.nodes.erase l }

def isDirectory (t : Tree) (l : Location) : Bool :=
  match t.get? l with
  | some .directory => true
  | _ => false

def nameLimit : Nat := 255

def isTooLong (name : String) : Bool :=
  match Text.nameBytes name with
  | .ok bytes => nameLimit < bytes.length
  | .error _ => false

/-- Follows parts from a location on.  What the last part names need not exist. -/
def walk (t : Tree) : Location → List String → Except Obstacle Location
  | here, [] => .ok here
  | here, name :: rest =>
    match t.get? here with
    | none => .error .missing
    | some (.file _) => .error .notDirectory
    | some .directory =>
      if isTooLong name then .error .nameTooLong
      else if name == ".." then walk t here.tail rest
      else walk t (name :: here) rest

def locate (t : Tree) (path : String) : Except Obstacle Location :=
  t.walk (if (rootOf path).isEmpty then t.home else []) (parts path)

def relative? (base l : Location) : Option String :=
  let count := l.length - base.length
  if l.drop count == base then some (Text.join "/" (l.take count).reverse) else none

/-- The files below a location by their paths from there, in the order of these. -/
def below (t : Tree) (base : Location) : List (String × ByteArray) :=
  let found := t.nodes.toList.filterMap (fun (l, n) =>
    match n with
    | .file bytes => (relative? base l).map (fun path => (path, bytes))
    | .directory => none)
  Text.sortBy Prod.fst found

def under (t : Tree) (dir : String) : List (String × ByteArray) :=
  match t.locate dir with
  | .ok l => if t.isDirectory l then t.below l else []
  | .error _ => []

end Tree

end ScoreWasm.Files
