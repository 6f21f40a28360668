import ScoreWasm.Machine.Program
import ScoreWasm.Pack.Assemble
import ScoreWasm.Pack.Sha256

/-!
# The manifest

What is known of a compiled module besides its functions, with a digest of them.
-/

namespace ScoreWasm.Pack

open Wasm

def lineTexts (lines : List Line) : List String := lines.map Line.render

def digestLine (acc : ByteArray) (line : String) : Except Text.HalfFault ByteArray :=
  (Text.utf8Array line).map (fun bytes => (acc ++ bytes).push 10)

/-- Adds the bytes that are hashed for a function: its name and its lines, each ended by a line feed, and
a zero. -/
def digestPart (acc : ByteArray) (f : String × List String) : Except Text.HalfFault ByteArray :=
  ((f.1 :: f.2).foldlM digestLine acc).map (·.push 0)

/-- The stream that is hashed, for functions in the order of their names, if their texts have bytes. -/
def digestStream (functions : List (String × List String)) : Except Text.HalfFault ByteArray :=
  functions.foldlM digestPart .empty

def digest (functions : List (String × List String)) : Except Text.HalfFault String :=
  (digestStream functions).map (fun bytes => Text.hexText (Sha256.hash bytes))

/-! ### What a manifest says -/

def texts (p : Pack) : List (String × List String) :=
  p.functions.map (fun (name, lines) => (name, lineTexts lines))

/-- The digest of the functions.  The texts of a compiled module have bytes. -/
def digestOf (p : Pack) : String := (digest p.texts).toOption.getD ""

def commandCount (p : Pack) : Nat := p.functions.foldl (fun n f => n + f.2.length) 0

def exportJson (e : ExportEntry) : Json :=
  let types (ts : List ValType) : Json := .arr (ts.map (fun t => .str t.name))
  .obj [("function", .str e.function), ("index", .int e.index), ("params", types e.type.params),
    ("results", types e.type.results)]

def exportsJson (p : Pack) : Json := .obj (p.exports.map (fun e => (e.name, exportJson e)))

def trapsJson : Json := .obj (Trap.all.map (fun t => (t.name, .int t.code)))

def manifest (p : Pack) : Json :=
  .obj [
    ("format", .str "wasmcraft-manifest/1"),
    ("namespace", .str p.ns),
    ("objective", .str objective),
    ("init", .str (Emit.inNamespace p.ns "init")),
    ("tick", (p.tick.head?.map Json.str).getD .null),
    ("start", if p.hasStart then .str (Emit.inNamespace p.ns "rt/start") else .null),
    ("exports", p.exportsJson),
    ("memory", (p.memory.map (fun l =>
      Json.obj [("pages", .int l.pages), ("max_pages", .int l.maxPages)])).getD .null),
    ("traps", trapsJson),
    ("options", p.options.toJson),
    ("functions", .int p.functions.length),
    ("commands", .int p.commandCount),
    ("digest", .str p.digestOf)]

/-- The full name of a function given by its path or its full name. -/
def fullName (p : Pack) (name : String) : String :=
  if name.toList.contains ':' then name else Emit.inNamespace p.ns name

def lines? (p : Pack) (name : String) : Option (List Line) := p.functions.lookup (p.fullName name)

def splitName (name : String) : String × String :=
  (Text.cutAt? ":" name).getD (name, "")

def namesUnder (p : Pack) (start : String) : List String :=
  (p.functions.map Prod.fst).filter (fun name => Text.startsWith start (splitName name).2)

structure Summary where
  function : Nat
  blocks : Nat
  reachable : Nat
  commands : Nat
  loops : Nat

def Summary.outline (s : Summary) : Json := .obj
  [("function", .int s.function), ("blocks", .int s.blocks), ("reachable", .int s.reachable),
   ("commands", .int s.commands), ("loops", .int s.loops)]

def summary (p : Pack) : List Summary :=
  p.compiled.map (fun c => {
    function := c.graph.func
    blocks := c.graph.blocks.size
    reachable := c.graph.reachableBlocks.length
    commands := c.scripts.foldl (fun n s => n + s.2.lines.length) 0
    loops := c.graph.loopHeaders.length })

/-- The program of a compiled module, with the part of the manifest that running it needs. -/
def program (p : Pack) : Machine.Program where
  namespaceName := p.ns
  functions := Std.HashMap.ofList (p.functions.map (fun (name, lines) =>
    (name, Machine.Function.ofLines lines)))
  manifest := .obj [("exports", p.exportsJson), ("traps", trapsJson)]
  load := p.load.map .str
  tick := p.tick.map .str
  maxCommands := 65536
  strict := true

end ScoreWasm.Pack
