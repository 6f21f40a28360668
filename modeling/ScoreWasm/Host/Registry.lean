import ScoreWasm.Host.Builtin
import ScoreWasm.Text.WordChar
import ScoreWasm.Wasm.Error
import ScoreWasm.Wasm.Module

/-!
# Registries of host functions

A registry finds host functions by their keys, in the order in which they were added.  Host functions
are declared line by line, as in `env.beep(i32) -> () | say beep; say again`, or described by JSON
objects.
-/

namespace ScoreWasm.Host

open Wasm Text

/-! ### Declarations -/

def isNameStart (c : Char) : Bool := c.isAlpha || c == '_'

/-- An identifier at the front of the characters, with hyphens allowed inside. -/
def identifier? (cs : List Char) : Option (String × List Char) :=
  match cs with
  | c :: rest =>
    if isNameStart c then
      let inside (c : Char) : Bool := isWordChar c || c == '-'
      some (String.ofList (c :: rest.takeWhile inside), rest.dropWhile inside)
    else none
  | [] => none

/-- What follows a mark at the front of the characters, without white space after it. -/
def after? (mark : String) (cs : List Char) : Option (List Char) :=
  if mark.toList.isPrefixOf cs then some ((cs.drop mark.length).dropWhile isBlank) else none

/-- A list between parentheses at the front of the characters, its items by commas. -/
def parenthesized? (cs : List Char) : Option (String × List Char) :=
  match cs with
  | '(' :: rest =>
    match rest.dropWhile (· != ')') with
    | _ :: after => some (String.ofList (rest.takeWhile (· != ')')), after.dropWhile isBlank)
    | [] => none
  | _ => none

/-- The pieces of a text between separators, without white space around them and without empty
ones. -/
def pieces (sep : Char) (s : String) : List String :=
  ((splitOn sep s).map strip).filter (fun p => !p.isEmpty)

/-- The parts of a declaration: module, name, parameters, results and commands. -/
def declaration? (line : String) : Option (String × String × String × String × String) := do
  let (module, rest) ← identifier? line.toList
  let (name, rest) ← match rest with
    | '.' :: rest => identifier? rest
    | _ => none
  let (params, rest) ← parenthesized? (rest.dropWhile isBlank)
  let (results, rest) ← parenthesized? (← after? "->" rest)
  match rest with
  | [] => return (module, name, params, results, "")
  | _ =>
    match ← after? "|" rest with
    | [] => none
    | commands => return (module, name, params, results, String.ofList commands)

def ofDeclaration (line : String) : Except HostFault Host :=
  match declaration? line with
  | none => .error (.badDeclaration line)
  | some (module, name, params, results, commands) =>
    let list (l : List String) : Json := .arr (l.map .str)
    make (.str module) (.str name) (list (pieces ',' params)) (list (pieces ',' results))
      (list (pieces ';' commands)) (.str "")

/-- The host functions of a text with one declaration per line; blank lines and comments are
skipped. -/
def ofSchema (schema : String) : Except HostFault (List Host) :=
  (((lines schema).map strip).filter (fun l => !l.isEmpty && !startsWith "#" l)).mapM ofDeclaration

/-! ### Descriptions -/

def kindName : Json → String
  | .bool _ => "bool"
  | .int _ => "int"
  | .float _ => "float"
  | _ => "object"

/-- The host functions of a description: a list of descriptions, an object with such a list, an object
for one host function, declarations as text, or JSON as text.  A description inside another one is
shorter, so its length is fuel enough. -/
def ofSpecWith : Nat → Json → Except HostFault (List Host)
  | 0, _ => .error .noList
  | fuel + 1, spec =>
    match spec with
    | .null => .ok []
    | .str s =>
      let trimmed := strip s
      match trimmed.toList with
      | [] => .ok []
      | c :: _ =>
        if c == '[' || c == Char.ofNat 123 then
          match Json.parse trimmed with
          | .ok j => ofSpecWith fuel j
          | .error f => .error (.json f)
        else ofSchema trimmed
    | .arr items => do return (← items.mapM (ofSpecWith fuel)).flatten
    | .obj _ =>
      match spec.field? "hosts" with
      | some (.arr items) => do return (← items.mapM (ofSpecWith fuel)).flatten
      | _ => do return [← ofJson spec]
    | other => .error (.unsupported (kindName other))

def ofSpec (spec : Json) : Except HostFault (List Host) :=
  ofSpecWith (spec.compact.length + 1) spec

/-! ### Registries -/

/-- Host functions in the order of their first registration. -/
abbrev Registry := List Host

namespace Registry

def builtin : Registry := builtins

def get? (r : Registry) (key : String) : Option Host := r.find? (fun h => h.key == key)

/-- Adds a host function in place of the one with its key, or at the end. -/
def insert (h : Host) : Registry → Registry
  | [] => [h]
  | old :: rest => if old.key == h.key then h :: rest else old :: insert h rest

def insertAll (r : Registry) (hosts : List Host) : Registry :=
  hosts.foldl (fun r h => insert h r) r

/-- Adds host functions one by one, up to the first whose key is taken unless that is allowed. -/
def register (replace : Bool) : Registry → List Host → Registry × Option HostFault
  | r, [] => (r, none)
  | r, h :: rest =>
    if (r.get? h.key).isSome && !replace then (r, some (.duplicate h.key))
    else register replace (insert h r) rest

end Registry

def bind (r : Registry) (m : Module) (i : Import) (type : Int) : Except CompileError Host :=
  match m.typeAt? type with
  | none => .error .outOfRange
  | some expected =>
    match r.get? (i.module ++ "." ++ i.name) with
    | none => .error (.unresolved i.module i.name expected .missing)
    | some h =>
      if h.type == expected then .ok h
      else .error (.unresolved i.module i.name expected (.signature h.type))

def bindAll (r : Registry) (m : Module) : Except CompileError (List Host) :=
  m.funcImports.mapM (fun (i, type) => bind r m i type)

end ScoreWasm.Host
