import ScoreWasm.Json.Read
import ScoreWasm.Wasm.Types

/-!
# Host functions

A host function is what an imported function stands for: a short list of commands that replaces the
call.  The commands name the registers of the call by placeholders: `<arg0>` and so on for arguments,
`<result>` for the result, each with an `h` for the high word, and `<ns>` for the namespace.
-/

namespace ScoreWasm

open Wasm

/-- A host function; it has one result at most. -/
structure Host where
  module : String
  name : String
  params : List ValType
  results : List ValType
  commands : List String
  description : Json

/-- Why a description of host functions cannot be used.  The last three have no wording: a number or
the like where a text is needed or where a list is needed, and text that is no JSON. -/
inductive HostFault where
  | nameless
  | unknownType (key type : String)
  | manyResults (key : String)
  | badDeclaration (line : String)
  | duplicate (key : String)
  | notMapping
  | unsupported (kind : String)
  | noText
  | noList
  | json (f : Json.Fault)
  deriving DecidableEq, Repr

def HostFault.message? : HostFault → Option String
  | nameless => some "host function requires a module and a name"
  | unknownType key type => some ("host function " ++ key ++ " has unknown value type: " ++ type)
  | manyResults key => some ("host function " ++ key ++ " returns more than one value")
  | badDeclaration line => some ("Invalid host function declaration: " ++ line)
  | duplicate key => some ("Duplicate host function " ++ key)
  | notMapping => some "host function must be built from a mapping"
  | unsupported kind =>
    some ("Unsupported host function spec type: <class " ++ Text.quoted kind ++ ">")
  | noText => none
  | noList => none
  | json _ => none

def HostFault.text : HostFault → String
  | json f => f.text
  | f => f.message?.getD ""

namespace Host

def key (h : Host) : String := h.module ++ "." ++ h.name

def type (h : Host) : FuncType := ⟨h.params, h.results⟩

/-- Whether the commands end the function that they become part of. -/
def terminal (h : Host) : Bool :=
  match h.commands.getLast? with
  | some c => Text.startsWith "return " c
  | none => false

/-! ### Reading descriptions -/

/-- A text; nothing counts as the empty one. -/
def textOf (j : Json) : Except HostFault String :=
  if j.isNothing then .ok ""
  else match j with
    | .str s => .ok s
    | _ => .error .noText

/-- The texts of a list; a text stands for the list of its characters, an object for that of its
names, and nothing for the empty list. -/
def textsOf (j : Json) : Except HostFault (List String) :=
  if j.isNothing then .ok []
  else match j with
    | .arr items => items.mapM (fun i => match i with
      | .str s => .ok s
      | _ => .error .noText)
    | .str s => .ok (Text.singles s)
    | .obj fields => .ok (fields.map Prod.fst)
    | _ => .error .noList

/-- The texts of a list without the white space around them, and without empty ones. -/
def wordsOf (j : Json) : Except HostFault (List String) := do
  return ((← textsOf j).map Text.strip).filter (fun s => !s.isEmpty)

def typeOf (key : String) (name : String) : Except HostFault ValType :=
  match ValType.named? name with
  | some t => .ok t
  | none => .error (.unknownType key name)

def make (module name params results commands description : Json) : Except HostFault Host := do
  let module := Text.strip (← textOf module)
  let name := Text.strip (← textOf name)
  if module.isEmpty || name.isEmpty then throw .nameless
  let params ← wordsOf params
  let results ← wordsOf results
  let key := module ++ "." ++ name
  let params ← params.mapM (typeOf key)
  let results ← results.mapM (typeOf key)
  if 1 < results.length then throw (.manyResults key)
  let commands := (← textsOf commands).filter (fun c => !(Text.strip c).isEmpty)
  return ⟨module, name, params, results, commands, description⟩

def ofJson (j : Json) : Except HostFault Host :=
  match j with
  | .obj _ =>
    let part (name : String) : Json := (j.field? name).getD .null
    let description := part "description"
    make (part "module") (part "name") (part "params") (part "results") (part "commands")
      (if description.isNothing then .str "" else description)
  | _ => .error .notMapping

def toJson (h : Host) : Json :=
  let strs (l : List String) : Json := .arr (l.map .str)
  .obj [("module", .str h.module), ("name", .str h.name),
    ("params", strs (h.params.map ValType.name)), ("results", strs (h.results.map ValType.name)),
    ("commands", strs h.commands), ("description", h.description)]

def outline (h : Host) : Json := .obj ((h.toJson.obj?.getD []) ++
  [("key", .str h.key), ("type", .str h.type.text), ("terminal", .bool h.terminal)])

/-! ### Using host functions -/

def fillArgument (i : Nat) (reg line : String) : String :=
  Text.replace (Text.replace line ("<arg" ++ toString i ++ "h>") (reg ++ "h"))
    ("<arg" ++ toString i ++ ">") reg

/-- Replaces the placeholders of arguments, the last one first. -/
def fillArguments (args : List String) (line : String) : String :=
  args.zipIdx.foldr (fun (reg, i) line => fillArgument i reg line) line

def fillResult (result : Option String) (line : String) : String :=
  match result with
  | some reg => Text.replace (Text.replace line "<resulth>" (reg ++ "h")) "<result>" reg
  | none => line

def expand (h : Host) (ns : String) (args : List String) (result : Option String) : List String :=
  h.commands.map (fun c => fillArguments args (fillResult result (Text.replace c "<ns>" ns)))

end Host

end ScoreWasm
