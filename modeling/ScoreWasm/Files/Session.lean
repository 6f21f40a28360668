import ScoreWasm.Files.Tree

/-!
# Sessions

A session is what a program has to do with the outside: the files it sees and the text it has printed.
An action works on a session and may fail; what it did before it failed stays done.
-/

namespace ScoreWasm.Files

inductive FileFault where
  | missing (path : String)
  | found (path : String)
  | notDirectory (path : String)
  | directory (path : String)
  | nameTooLong (path : String)
  | nullCharacter
  | notText (f : Text.Utf8Fault)
  | noBytes (f : Text.HalfFault)
  deriving DecidableEq, Repr

namespace FileFault

def text : FileFault → String
  | missing path => "[Errno 2] No such file or directory: " ++ Text.quoted path
  | found path => "[Errno 17] File exists: " ++ Text.quoted path
  | notDirectory path => "[Errno 20] Not a directory: " ++ Text.quoted path
  | directory path => "[Errno 21] Is a directory: " ++ Text.quoted path
  | nameTooLong path => "[Errno 36] File name too long: " ++ Text.quoted path
  | nullCharacter => "embedded null byte"
  | notText f => f.text
  | noBytes f => f.text

def ofObstacle (path : String) : Obstacle → FileFault
  | .missing => .missing path
  | .notDirectory => .notDirectory path
  | .nameTooLong => .nameTooLong path

end FileFault

structure Session where
  files : Tree
  out : String

/-- A session in an empty working directory, under a name that no path can give. -/
def Session.fresh : Session := ⟨.atHome [""], ""⟩

abbrev Action (ε α : Type) := EStateM ε Session α

def say {ε : Type} (line : String) : Action ε Unit :=
  modify (fun s => { s with out := s.out ++ line ++ "\n" })

def pathLimit : Nat := 4096

/-- The name that a path is handed on by, or why no file can have it. -/
def checkPath (path : String) : Action FileFault String := do
  match Text.nameBytes path with
  | .error f => throw (.noBytes f)
  | .ok bytes =>
    if bytes.contains 0 then throw .nullCharacter
    if bytes.isEmpty then throw (.missing path)
    if pathLimit ≤ bytes.length then throw (.nameTooLong path)
    return Text.nameOfBytes bytes

def follow (path name : String) : Action FileFault (Location × Option Node) := do
  let tree := (← get).files
  match tree.locate name with
  | .error o => throw (.ofObstacle path o)
  | .ok l => return (l, tree.get? l)

/-- The location that a path leads to.  If it ends in a slash or a dot, it must not lead to a file, and if
it ends in a dot, there has to be something. -/
def locate (path : String) : Action FileFault Location := do
  match ← follow path (← checkPath path) with
  | (l, some (.file _)) =>
    if endsInSlash path || endsInDot path then throw (.notDirectory path) else return l
  | (l, some .directory) => return l
  | (l, none) => if endsInDot path then throw (.missing path) else return l

/-- The files below a directory by their paths from there.  A directory that is not there has none. -/
def filesUnder (dir : String) : Action FileFault (List (String × ByteArray)) := do
  let name ← tryCatch (checkPath dir) (fun f => match f with
    | .missing _ | .nameTooLong _ => return ""
    | _ => throw f)
  let tree := (← get).files
  return if name.isEmpty then [] else tree.under name

def readBytes (path : String) : Action FileFault ByteArray := do
  let l ← locate path
  match (← get).files.get? l with
  | some (.file bytes) => return bytes
  | some .directory => throw (.directory path)
  | none => throw (.missing path)

def unifyLines : List Char → List Char
  | [] => []
  | '\r' :: '\n' :: rest => '\n' :: unifyLines rest
  | c :: rest => (if c == '\r' then '\n' else c) :: unifyLines rest

def readText (path : String) : Action FileFault String := do
  match Text.decodeUtf8 (← readBytes path).toList with
  | .ok text => return String.ofList (unifyLines text.toList)
  | .error f => throw (.notText f)

/-- The location of a file to be written into a directory that exists.  A path that ends in a slash is
that of no file, whatever it leads to. -/
def locateFile (path : String) : Action FileFault Location := do
  let name ← checkPath path
  if endsInSlash path && !endsInDot path then
    match ← follow path (ofParts (rootOf name) (parts name).dropLast) with
    | (_, some .directory) => throw (.directory path)
    | (_, some (.file _)) => throw (.notDirectory path)
    | (_, none) => throw (.missing path)
  let l ← locate path
  if (← get).files.isDirectory l then throw (.directory path) else return l

def writeBytes (path : String) (bytes : ByteArray) : Action FileFault Unit := do
  let l ← locateFile path
  modify (fun s => { s with files := s.files.put l (.file bytes) })

/-- Makes a directory in one that exists; one that is there already will do. -/
def makeDirectory (path : String) : Action FileFault Unit := do
  let l ← locate path
  match (← get).files.get? l with
  | some .directory => return ()
  | some (.file _) => throw (.found path)
  | none => modify (fun s => { s with files := s.files.put l .directory })

/-- Makes a directory and those on the way to it, given the parts of its path in reverse.  The ones on the
way are made only if the path cannot be followed without them. -/
def makeDirectories (root : String) : List String → Action FileFault Unit
  | [] => return ()
  | last :: before => do
    let path := ofParts root (last :: before).reverse
    tryCatch (makeDirectory path) (fun f => do
      match f with
      | .missing _ =>
        makeDirectories root before
        makeDirectory path
      | _ => throw f)

/-- Writes text to a file after some bytes, which alone are written if the text has none. -/
def writeAfter (before : ByteArray) (path text : String) : Action FileFault Unit := do
  match Text.utf8Array text with
  | .ok bytes => writeBytes path (before ++ bytes)
  | .error f =>
    writeBytes path before
    throw (.noBytes f)

def writeText (path text : String) : Action FileFault Unit := do
  makeDirectories (rootOf path) (parts path).dropLast.reverse
  writeAfter .empty path text

/-! ### Paths as they are given

A path that is not brought into its normal form first is followed as it stands, with a slash at its end. -/

/-- The path above a path, and the last name of it; a slash at the end counts for nothing. -/
def splitAbove (path : String) : String × String :=
  let (head, name) := splitLast path
  if name.isEmpty then splitLast head else (head, name)

def isPresent (path : String) : Action FileFault Bool :=
  tryCatch (do return ((← get).files.get? (← locate path)).isSome) (fun _ => return false)

/-- Makes a directory, and before it those that its path leads through if they are missing; of these, one
that turns out to be a file is passed over.  Every step shortens the path. -/
def makePath : Nat → String → Action FileFault Unit
  | 0, _ => return ()
  | fuel + 1, path => do
    let (above, name) := splitAbove path
    if above.isEmpty || name.isEmpty || (← isPresent above) then makeDirectory path
    else
      tryCatch (makePath fuel above) (fun f => match f with
        | .found _ => return ()
        | _ => throw f)
      if name != "." then makeDirectory path

def makeAbove (path : String) : Action FileFault Unit := do
  let dir := (splitLast path).1
  if !dir.isEmpty then makePath dir.length dir

def putFile (path : String) (bytes : ByteArray) : Action FileFault Unit := do
  makeAbove path
  writeBytes path bytes

def putText (path text : String) : Action FileFault Unit := do
  makeAbove path
  writeAfter .empty path text

/-- The files below a directory by their paths, with their sizes.  A directory whose path is too long is
passed over. -/
def list (dir : String) : Action FileFault (List (String × Nat)) := do
  (← filesUnder dir).filterMapM (fun (file, bytes) => do
    let path := extend dir file
    if ← isPresent (splitLast path).1 then
      discard (locate path)
      return some (collapse path, bytes.size)
    else return none)

def appendText (path text : String) : Action FileFault Unit := do
  let l ← locateFile path
  match (← get).files.get? l with
  | some (.file before) => writeAfter before path text
  | _ => writeAfter .empty path text

def removeFile (path : String) : Action FileFault Unit := do
  let l ← locate path
  match (← get).files.get? l with
  | some (.file _) => modify (fun s => { s with files := s.files.erase l })
  | some .directory => throw (.directory path)
  | none => throw (.missing path)

end ScoreWasm.Files
