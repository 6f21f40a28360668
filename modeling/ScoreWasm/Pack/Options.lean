import ScoreWasm.Json.Basic
import ScoreWasm.Number.Read

/-!
# Options

What can be chosen when a module is compiled.
-/

namespace ScoreWasm.Pack

/-- Why options cannot be used.  The last five have no wording: an unknown option, a text that is no
number, a value that is no number, a number that is infinite, and a namespace that is no text. -/
inductive OptionFault where
  | budget
  | maxDepth
  | jobs
  | unknown (name : String)
  | badNumber
  | noNumber
  | infinite
  | noText
  deriving DecidableEq, Repr

def OptionFault.message? : OptionFault → Option String
  | budget => some "budget must be positive (use None to disable)"
  | maxDepth => some "max_depth must be positive"
  | jobs => some "jobs must be positive"
  | unknown _ => none
  | badNumber => none
  | noNumber => none
  | infinite => none
  | noText => none

/-- The options: the namespace, how many jumps back and calls a tick allows, how deep calls may nest,
how many functions are compiled at once, and whether blocks are headed by comments. -/
structure Options where
  ns : String := "wasm"
  budget : Option Int := some 32
  maxDepth : Int := 256
  jobs : Int := 1
  comments : Bool := false

namespace Options

def default : Options := {}

/-- A whole number: an integer, a truth value, a floating-point number without its fraction, or the
number that a text shows. -/
def numberOf : Json → Except OptionFault Int
  | .int i => .ok i
  | .bool b => .ok (if b then 1 else 0)
  | .float x =>
    match x.trunc with
    | .ok i => .ok i
    | .error .notANumber => .error .badNumber
    | .error .infinite => .error .infinite
  | .str s =>
    match Number.int? s with
    | some i => .ok i
    | none => .error .badNumber
  | _ => .error .noNumber

def namespaceOf (j : Json) : Except OptionFault String :=
  if j.isNothing then .ok ""
  else match j with
    | .str s => .ok (Text.strip s)
    | _ => .error .noText

def positive (fault : OptionFault) (j : Json) : Except OptionFault Int := do
  let i ← numberOf j
  if i < 1 then throw fault
  return i

def names : List String := ["namespace", "budget", "max_depth", "jobs", "comments"]

def ofFields (fields : List (String × Json)) : Except OptionFault Options := do
  match fields.find? (fun f => !names.contains f.1) with
  | some (name, _) => throw (.unknown name)
  | none =>
    let value (name : String) (d : Json) : Json := (fields.lookup name).getD d
    let ns ← namespaceOf (value "namespace" (.str default.ns))
    let budget ← match value "budget" (.int 32) with
      | .null => pure none
      | j => some <$> positive .budget j
    let maxDepth ← positive .maxDepth (value "max_depth" (.int default.maxDepth))
    let jobs ← positive .jobs (value "jobs" (.int default.jobs))
    return ⟨ns, budget, maxDepth, jobs, !(value "comments" (.bool false)).isNothing⟩

def toJson (o : Options) : Json :=
  .obj [("namespace", .str o.ns), ("budget", (o.budget.map Json.int).getD .null),
    ("max_depth", .int o.maxDepth)]

end Options

end ScoreWasm.Pack
