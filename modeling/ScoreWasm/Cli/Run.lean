import ScoreWasm.Cli.Arguments
import ScoreWasm.Flow.Listing
import ScoreWasm.Machine.Call
import ScoreWasm.Pack.Directory

/-!
# The command line

Compiles a module and writes it as a pack, and on request runs one of its functions; or looks after
packs that were written before.  Everything happens in a session, so what the program prints and writes
is a function of its arguments and of the files it finds.
-/

namespace ScoreWasm.Cli

open Files

inductive Trouble where
  | file (f : FileFault)
  | directory (f : Pack.DirectoryFault)
  | host (f : HostFault)
  | option (f : Pack.OptionFault)
  | compile (e : Wasm.CompileError)
  | machine (f : Machine.Fault)
  | noFunction (token : String)
  | number (f : Number.Fault)
  | argumentCount (name : String) (expected given : Nat)
  | noExport (name : String)
  | noEngine
  | noDrawing
  | noPlotting

inductive Kind where
  | compile | value | system | package | key | command | other
  deriving DecidableEq, Repr

namespace Trouble

def directoryKind : Pack.DirectoryFault → Kind
  | .file (.notText _) | .file (.noBytes _) | .file .nullCharacter => .value
  | .file _ => .system
  | .json (.tooDeep _) => .package
  | .notPack _ _ | .changed _ | .json _ => .value
  | .noSignatures => .package
  | .noNamespace => .key
  | _ => .other

def machineKind : Machine.Fault → Kind
  | .command .missingWord | .command .tooLarge => .other
  | .command .tooDeep | .command (.json (.tooDeep _)) => .package
  | .command .unclosedArray | .command (.number _) | .command (.json _) => .value
  | .number _ | .emptyRange _ _ => .value
  | .noExport _ | .unknownComparison _ | .missingKey _ => .key
  | .tooDeep => .package
  | .argumentCount _ _ _ | .integerExpected _ | .wrongType | .noAttribute | .outOfRange | .tooLarge =>
    .other
  | _ => .command

def kind : Trouble → Kind
  | file (.notText _) | file (.noBytes _) | file .nullCharacter => .value
  | file _ => .system
  | directory f => directoryKind f
  | host (.notMapping) | host (.unsupported _) | host .noText | host .noList => .other
  | host (.json (.tooDeep _)) => .package
  | host _ => .value
  | option .noNumber | option .infinite | option .noText | option (.unknown _) => .other
  | option _ => .value
  | compile .noRoom | compile .outOfRange => .other
  | compile (.noBytes _) | compile (.number _) => .value
  | compile _ => .compile
  | machine f => machineKind f
  | noFunction _ | number _ | argumentCount _ _ _ => .value
  | noExport _ => .key
  | noEngine | noDrawing | noPlotting => .package

/-- The words for a trouble; the name of something that was not found is quoted once more. -/
def text : Trouble → String
  | file f => f.text
  | directory f => f.text
  | host f => f.text
  | option f => f.message?.getD ""
  | compile e => e.text
  | machine f => f.text
  | noFunction token => "no function named " ++ Text.quoted token
  | number f => f.text
  | argumentCount name expected given =>
    name ++ " expects " ++ toString expected ++ " arguments, got " ++ toString given
  | noExport name => Text.quoted ("no exported function " ++ Text.quoted name)
  | noEngine =>
    "Reference execution requires the " ++ Text.quoted "wasmtime" ++ " package to be installed"
  | noDrawing => "Graphviz export requires the " ++ Text.quoted "pydot" ++ " package to be installed"
  | noPlotting => "Visualization requires networkx and matplotlib to be installed"

end Trouble

abbrev Job (α : Type) := Action Trouble α

def orTrouble {ε α : Type} (wrap : ε → Trouble) : Except ε α → Job α
  | .ok a => return a
  | .error e => throw (wrap e)

/-- Does a job; trouble of some kinds is reported on a line of its own. -/
def reporting {α : Type} (margin : String) (kinds : List Kind) (job : Job α) : Job (Option α) :=
  tryCatch (some <$> job) (fun t => do
    if kinds.contains t.kind then
      say (margin ++ "✗ " ++ t.text)
      return none
    else throw t)

/-- What an argument asks for, unless it is missing or empty. -/
def asked (s : Option String) : Option String := s.filter (fun s => !s.isEmpty)

def optionNumber (i : Option Int) : Json := (i.map Json.int).getD (.arr [])

/-! ### Values -/

def readValue (type token : String) : Except Trouble Word.Argument :=
  if type == "f32" || type == "f64" then
    match Number.float? token with
    | some x => .ok (.float x)
    | none => .error (.number (.noFloat token))
  else match Number.markedInt? token with
    | some i => .ok (.int i)
    | none => .error (.number (Number.integerFault 0 token))

def hexDigits (v : Int) : String :=
  (if v < 0 then "-" else "") ++ String.ofList (Nat.toDigits 16 v.natAbs)

/-- A value of a type; a floating-point number is shown with its pattern. -/
def valueText (type : String) (v : Int) : String :=
  if type == "f32" || type == "f64" then
    (Word.bitsToFloat type v).text ++ " (bits 0x" ++ hexDigits v ++ ")"
  else toString v

/-- Printed data: a text as it is, all else as in messages. -/
def outputText (v : Nbt) : String :=
  match v.outline with
  | .str s => s
  | j => j.literal

def sayResult (label : String) (types : List String) (r : Machine.CallResult) : Job Unit := do
  match r.trap, r.exit with
  | some trap, _ => say ("  ✗ " ++ label ++ ": trap " ++ trap)
  | none, some code => say ("  ✓ " ++ label ++ ": exited with code " ++ toString code)
  | none, none =>
    let values := (types.zip r.results).map (fun (t, v) => valueText t v)
    say ("  ✓ " ++ label ++ ": [" ++ Text.join ", " values ++ "]")
  for v in r.output do
    say ("    out: " ++ outputText v)
  if !r.text.isEmpty then
    say ("    text: " ++ Text.quotedCodes (r.text.map Int.toNat))

/-! ### Jobs -/

/-- Runs an exported function in a fresh world; there is no other engine to compare with. -/
def runExport (p : Pack) (name : String) (tokens : List String) (compare : Bool) : Job Unit := do
  let entry ← match p.exports.find? (fun e => e.name == name) with
    | some e => pure e
    | none => throw (.noExport name)
  let types := entry.type.params.map Wasm.ValType.name
  if tokens.length != types.length then throw (.argumentCount name types.length tokens.length)
  let args ← orTrouble id ((types.zip tokens).mapM (fun (t, token) => readValue t token))
  say ("\nRunning " ++ name ++ "(" ++ Text.join ", " tokens ++ "):")
  let program := p.program
  let calling : Machine.Run Machine.CallResult := do
    Machine.reload program
    Machine.call program name args 100000
  match calling.run Machine.World.fresh with
  | .error f _ => throw (.machine f)
  | .ok r _ =>
    let label := "datapack (" ++ toString r.ticks ++ " ticks, " ++ toString r.commands ++ " commands)"
    sayResult label (entry.type.results.map Wasm.ValType.name) r
    if compare then throw .noEngine

def hostsOf (path : Option String) : Job Host.Registry := do
  match asked path with
  | none => return Host.Registry.builtin
  | some path =>
    let text ← EStateM.adaptExcept .file (readText path)
    return Host.Registry.builtin.insertAll (← orTrouble .host (Host.ofSpec (.str text)))

def optionsOf (a : Arguments) : Except Pack.OptionFault Pack.Options :=
  Pack.Options.ofFields [("namespace", .str (a.ns.getD "")),
    ("budget", if a.noBudget then .null else optionNumber a.budget),
    ("max_depth", optionNumber a.maxDepth), ("jobs", optionNumber a.jobs),
    ("comments", .bool a.comments)]

def compileFile (a : Arguments) (source : String) : Job (Wasm.Module × Pack) := do
  let hosts ← hostsOf a.hosts.join
  let options ← orTrouble .option (optionsOf a)
  let bytes ← EStateM.adaptExcept .file (readBytes source)
  let module ← orTrouble .compile (Wasm.Binary.decode bytes.toList)
  let checked ← orTrouble .compile (Wasm.validate module)
  say ("Module: " ++ source ++ " (" ++ toString module.funcCount ++ " functions, "
    ++ toString module.exports.length ++ " exports)")
  if a.dumpCfg then
    for g in ← orTrouble .compile (Flow.Graph.ofModule checked) do
      say (g.text module)
  return (module, ← orTrouble .compile (Pack.compile module options hosts))

def functionIndex (m : Wasm.Module) (token : String) : Except Trouble Int :=
  if !token.isEmpty && token.toList.all Text.isDigitForm then
    (Number.readInt token).mapError .number
  else match m.exports.find? (fun e => e.name == token && e.kind == .known .func) with
    | some e => .ok e.index
    | none => .error (.noFunction token)

def saySummary (p : Pack) : Job Unit := do
  say ("  ✓ Compiled " ++ toString p.functions.length ++ " command functions ("
    ++ toString p.commandCount ++ " commands), digest " ++ Text.take 16 p.digestOf)
  for s in p.summary do
    say ("    f" ++ toString s.function ++ ": " ++ toString s.blocks ++ " blocks ("
      ++ toString s.reachable ++ " reachable, " ++ toString s.loops ++ " loops), "
      ++ toString s.commands ++ " commands")

def build (a : Arguments) (input : String) : Job Nat := do
  let source := normalize input
  match ← reporting "" [.compile, .value, .system] (compileFile a source) with
  | none => return 1
  | some (module, pack) =>
    saySummary pack
    let output := (asked a.output.join).getD (withoutExtension source ++ "_datapack")
    discard (EStateM.adaptExcept .file (pack.write output))
    if (asked a.graphviz.join).isSome && !module.functions.isEmpty then
      discard (reporting "  " [.package] (throw .noDrawing : Job Unit))
    if let some token := asked a.visualize.join then
      discard (reporting "  " [.package, .value] (do
        discard (orTrouble id (functionIndex module token))
        throw .noPlotting : Job Unit))
    match a.run with
    | some (name :: tokens) =>
      let done ← reporting "  " [.key, .value, .package, .command]
        (runExport pack name tokens a.interpret)
      return if done.isSome then 0 else 1
    | _ => return 0

def perform (a : Arguments) : Job Nat := do
  if let some (before, after) := a.diff then
    let found ← EStateM.adaptExcept .directory (Pack.diffDirectories before after)
    return if found.isEmpty then 0 else 1
  if let some dir := asked a.hash.join then
    discard (EStateM.adaptExcept .directory (Pack.hashDirectory dir))
    return 0
  if let some dir := asked a.sign.join then
    let done ← reporting "" [.package, .value]
      (EStateM.adaptExcept .directory (Pack.signDirectory dir))
    return if done.isSome then 0 else 1
  if let some dir := asked a.verify.join then
    let valid ← reporting "" [.package] (EStateM.adaptExcept .directory (Pack.verifyDirectory dir))
    return if valid == some true then 0 else 1
  match asked a.input with
  | some input => build a input
  | none =>
    say "✗ No input module given (see --help)"
    return 2

end ScoreWasm.Cli
