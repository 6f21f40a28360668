import ScoreWasm.Text.Blank

/-!
# Paths of files

A path is a list of parts between slashes.  Empty parts and single dots say nothing, so every path has a
normal form.  Two dots lead to the directory above; which one that is depends on the files there are, so
they stay where they are.
-/

namespace ScoreWasm.Files

def parts (path : String) : List String :=
  (Text.splitOn '/' path).filter (fun p => !p.isEmpty && p != ".")

/-- What a path begins with if it starts at the root: one slash, or two for exactly two. -/
def rootOf (path : String) : String :=
  match (path.toList.takeWhile (· == '/')).length with
  | 0 => ""
  | 2 => "//"
  | _ => "/"

/-- The path of parts after a root; the empty path is a dot. -/
def ofParts (root : String) (parts : List String) : String :=
  let text := root ++ Text.join "/" parts
  if text.isEmpty then "." else text

def normalize (path : String) : String := ofParts (rootOf path) (parts path)

/-- A path inside a directory; one that starts at the root is taken as it is. -/
def child (dir path : String) : String :=
  if (rootOf path).isEmpty then ofParts (rootOf dir) (parts dir ++ parts path) else normalize path

def parent (path : String) : String := ofParts (rootOf path) (parts path).dropLast

/-- One step of following parts in a text alone: two dots take back the part before them, if there is
one. -/
def collapseStep (done : List String) (part : String) : List String :=
  match done with
  | last :: before => if part == ".." && last != ".." then before else part :: done
  | [] => [part]

/-- The normal form of a path in which every two dots take back the part before them. -/
def collapse (path : String) : String :=
  ofParts (rootOf path) ((parts path).foldl collapseStep []).reverse

def endsInSlash (path : String) : Bool := path.toList.getLast? == some '/'

/-- Whether the last name of a path is a dot; slashes at its end count for nothing. -/
def endsInDot (path : String) : Bool :=
  (Text.stripRightBy (· == '/') path.toList).reverse.takeWhile (· != '/') == ['.']

def extend (dir path : String) : String := if endsInSlash dir then dir ++ path else dir ++ "/" ++ path

/-- What stands before the last slash of a path, without further slashes at its end unless there is
nothing else, and what stands after it. -/
def splitLast (path : String) : String × String :=
  let name := (path.toList.reverse.takeWhile (· != '/')).reverse
  let head := path.toList.take (path.toList.length - name.length)
  let cut := Text.stripRightBy (· == '/') head
  (String.ofList (if cut.isEmpty then head else cut), String.ofList name)

/-- The last part of a path without what follows its last dot, unless that dot is at one of its
ends. -/
def dropExtension (name : List Char) : List Char :=
  let ext := name.reverse.takeWhile (· != '.')
  let stem := name.take (name.length - ext.length - 1)
  if ext.isEmpty || stem.isEmpty || ext.length == name.length then name else stem

def withoutExtension (path : String) : String :=
  let path := normalize path
  match (parts path).reverse with
  | [] => path
  | name :: dirs =>
    rootOf path ++ Text.join "/" (dirs.reverse ++ [String.ofList (dropExtension name.toList)])

end ScoreWasm.Files
