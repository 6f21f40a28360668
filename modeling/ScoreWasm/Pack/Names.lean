import ScoreWasm.Wasm.Error

/-!
# Names that the game accepts
-/

namespace ScoreWasm.Pack

open Wasm

def isNamespaceChar (c : Char) : Bool :=
  c.isLower || c.isDigit || c == '_' || c == '.' || c == '-'

def isPathChar (c : Char) : Bool := isNamespaceChar c || c == '/'

def dropLineFeed (cs : List Char) : List Char :=
  if cs.getLast? == some '\n' then cs.dropLast else cs

def isNamespace (s : String) : Bool :=
  let cs := dropLineFeed s.toList
  !cs.isEmpty && cs.all isNamespaceChar

/-- Whether a text is a namespace and a path with a colon between them.  A line feed at the end is not
looked at. -/
def isFunctionName (s : String) : Bool :=
  let cs := dropLineFeed s.toList
  let ns := cs.takeWhile isNamespaceChar
  match cs.drop ns.length with
  | ':' :: path => !ns.isEmpty && !path.isEmpty && path.all isPathChar
  | _ => false

def maxNameLength : Nat := 256

def checkNamespace (s : String) : Except CompileError Unit :=
  if isNamespace s then .ok () else .error (.emit (.badNamespace s))

def checkFunctionName (s : String) : Except CompileError Unit :=
  if maxNameLength < Text.size s then
    .error (.emit (.nameTooLong (Text.size s) maxNameLength (Text.take 40 s)))
  else if isFunctionName s then .ok ()
  else .error (.emit (.badName s))

/-! ### The names of exports -/

/-- A code point in lower case, with what a path cannot hold replaced.  Two characters outside ASCII
have a lower case that starts with an ASCII letter. -/
def cleanCode (n : Nat) : List Char :=
  let lower := (Char.ofNat n).toLower
  if isNamespaceChar lower then [lower]
  else if n == 0x212a then ['k']
  else if n == 0x130 then ['i', '_']
  else ['_']

def maxExportLength : Nat := 64

def exportPath (name : String) : String :=
  let cleaned := Text.stripBy (fun c => c == '.' || c == '_') ((Text.codes name).flatMap cleanCode)
  Text.take maxExportLength (if cleaned.isEmpty then "export" else String.ofList cleaned)

/-- The first of the names `base_n`, `base_(n+1)`, … that is not in use.  One more than there are names
in use are tried, so one of them is free. -/
def freshFrom (used : List String) (base : String) : Nat → Nat → String
  | 0, n => base ++ "_" ++ toString n
  | fuel + 1, n =>
    let candidate := base ++ "_" ++ toString n
    if used.contains candidate then freshFrom used base fuel (n + 1) else candidate

/-- A name like `base` that is not in use. -/
def fresh (used : List String) (base : String) : String :=
  if used.contains base then freshFrom used base (used.length + 1) 2 else base

end ScoreWasm.Pack
