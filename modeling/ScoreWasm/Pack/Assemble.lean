import ScoreWasm.Emit.Function
import ScoreWasm.Host.Registry
import ScoreWasm.Library.All
import ScoreWasm.Pack.Layout
import ScoreWasm.Pack.Names
import ScoreWasm.Pack.Options
import ScoreWasm.SoftFloat.Lower
import ScoreWasm.Wasm.Binary.Decode

/-!
# Compiling a module

The functions of all parts of a module, with the library, the functions that call through tables, one
function for each export, and the one that prepares everything.
-/

namespace ScoreWasm.Pack

open Wasm Emit Word

structure ExportEntry where
  name : String
  function : String
  index : Int
  type : FuncType
  deriving DecidableEq, Repr

end ScoreWasm.Pack

namespace ScoreWasm

/-- A compiled module.  The functions are in the order of their names. -/
structure Pack where
  ns : String
  functions : List (String × List Line)
  exports : List Pack.ExportEntry
  hasStart : Bool
  memory : Option Pack.MemoryLayout
  options : Pack.Options
  load : List String
  tick : List String
  compiled : List Emit.Compiled

end ScoreWasm

namespace ScoreWasm.Pack

open Wasm Emit Word

/-! ### Generated functions -/

/-- Starts a function: nothing is pending, and returning from it finishes the program. -/
def startScript (ns : String) (m : Module) (func : Int) (takesArguments : Bool) : Script :=
  let params := if takesArguments then (m.funcType func).params else []
  .join [call ns "rt/reset", pushFrame ns "rt/finish",
    .join (params.mapIdx (fun i t => copyValue (.localVar i) (.arg i) t.isWide)),
    jump ns (blockPath func 0)]

def tableFuncs (m : Module) (entries : List Int) : List Nat :=
  (List.range m.funcCount).filter (fun f => entries.contains (f : Int))

/-- The functions that call the function in `%cf` if it has a type. -/
def indirectScripts (ns : String) (m : Module) (tables : List (List Int)) (c : IndirectCall) :
    List (String × Script) :=
  let mismatch := goto ns (trapPath .typeMismatch)
  let matching := (tableFuncs m ((elementAt? tables c.table).getD [])).filter (fun (f : Nat) =>
    m.types.idxOf (m.funcType f) == c.type)
  let cases := matching.map (fun (f : Nat) => (⟨f, f, goto ns (blockPath f 0)⟩ : Case Command))
  let path := indirectPath c.table c.type
  let d := dispatch dispatchLimit path cases mismatch
  let script := choiceScript ns "%cf"
  d.extra.map (fun (p, lines) => (p, script lines)) ++ [(path, script d.lines)]

def globalScript (m : Module) : Except CompileError Script := do
  let imported := m.globalTypes.length - m.globals.length
  let scripts ← m.globals.zipIdx.mapM (fun (g, i) => do
    let v ← Validate.constant g.type.type "global" g.init
    let r : Reg := .globalVar (imported + i)
    if g.type.type.isWide then
      let (lo, hi) := split64 v
      return set r lo ++ set r.high hi
    else return set r v)
  return .join scripts

def memoryScript (ns : String) (layout : Option MemoryLayout) (words : List (Nat × Nat)) : Script :=
  match layout with
  | none => .join [set "%memsize" 0, set "%membytes" 0, set "%memmax" 0]
  | some l =>
    .join [
      .command (.setData (inNamespace ns "rt") Library.zeroPagePath
        (.words (List.replicate pageWords 0))),
      set "%memmax" l.maxPages, set "%mg" l.pages,
      given [atLeast "%mg" 1] (call ns "rt/mem/grow_loop"),
      set "%memsize" l.pages, set "%membytes" (l.pages * pageSize),
      .join (words.map (fun (word, v) =>
        setData ns "memory"
          [.key "pages", .index (word / pageWords : Nat), .index (word % pageWords : Nat)]
          (.int (wrap32 v))))]

def sortedSet (l : List Int) : List Int := (l.mergeSort (· ≤ ·)).eraseReps

/-- Prepares everything: constants, storages, memory, globals, tables, and then the start function. -/
def initScript (ns : String) (m : Module) (constants : List Int) (layout : Option MemoryLayout)
    (words : List (Nat × Nat)) (tables : List (List Int)) : Except CompileError Script := do
  let zero : Nbt := .int 0
  let compound (names : List String) : List (String × Nbt) := names.map (fun n => (n, zero))
  return .join [
    .command (.addObjective objective),
    .join ((sortedSet constants).map (fun v => set (.const v) v)),
    call ns "rt/reset",
    setData ns "rt" [.key "m"] (.compound (compound ["p", "i"])),
    setData ns "rt" [.key "ci"] (.compound (compound ["i"])),
    setData ns "rt" [.key "turtle"]
      (.compound (compound ["x", "y", "z"] ++ [("block", .str "minecraft:air")])),
    setData ns "io" [.key "out"] (.list #[]),
    setData ns "io" [.key "chars"] (.list #[]),
    setData ns "memory" [.key "pages"] (.list #[]),
    memoryScript ns layout words,
    ← globalScript m,
    .join (tables.mapIdx (fun i entries =>
      .command (.setData (inNamespace ns "table") [.key ("t" ++ toString i)] (.words entries)))),
    .onlyIf m.start.isSome (call ns "rt/start")]

/-! ### Exports -/

/-- The exported functions from a position on, given the names in use. -/
def exportEntries (ns : String) (m : Module) :
    List String → List Export → Except CompileError (List ExportEntry)
  | _, [] => .ok []
  | used, e :: rest =>
    if e.kind != .known .func then exportEntries ns m used rest
    else if m.isImport e.index then
      .error (.unsupported "host-functions" ("export of imported function " ++ e.name) none)
    else do
      let path := fresh used (exportPath e.name)
      let entries ← exportEntries ns m (path :: used) rest
      return ⟨e.name, inNamespace ns ("export/" ++ path), e.index, m.funcType e.index⟩ :: entries

/-! ### Everything -/

def allCalls (compiled : List Compiled) : List IndirectCall :=
  ((compiled.flatMap Compiled.calls).mergeSort (fun a b =>
    a.table < b.table || (a.table == b.table && a.type ≤ b.type))).eraseReps

/-- Functions in the order of their names; of two with one name the later counts. -/
def byName {α : Type} (functions : List (String × α)) : List (String × α) :=
  Text.sortBy Prod.fst (Std.HashMap.ofList functions).toList

/-- The first text without bytes among the lines of functions.  Commands are made of names and numbers
that have some. -/
def lineFault? (functions : List (String × List Line)) : Option Text.HalfFault :=
  functions.findSome? (fun f => f.2.findSome? (fun line => match line with
    | .command _ => none
    | other => match Text.utf8Array other.render with
      | .ok _ => none
      | .error f => some f))

def compileFunctions (s : Settings) (v : Validated) (hosts : List Host) :
    Except CompileError (List Compiled) :=
  (v.module.functions.zip v.bodies).zipIdx.mapM (fun ((f, body), i) =>
    functionCode s v.module hosts (v.module.importCount + i) f body)

def compile (m : Module) (o : Options) (registry : Host.Registry) : Except CompileError Pack := do
  let ns := o.ns
  checkNamespace ns
  let v ← SoftFloat.lower (← validate m)
  let m := v.module
  let hosts ← Host.bindAll registry m
  let layout ← memoryLayout m
  let words ← match layout with
    | some l => dataImage m l.pages
    | none => pure []
  let tables ← tableContents m
  let compiled ← compileFunctions ⟨ns, o.budget, o.maxDepth, o.comments⟩ v hosts
  let blocks := compiled.flatMap Compiled.scripts
  let library := Library.routines ns o.budget tables.length
  let indirect := (allCalls compiled).flatMap (indirectScripts ns m tables)
  let exports ← exportEntries ns m [] m.exports
  match m.start with
  | some f =>
    if m.isImport f then throw (.unsupported "host-functions" "imported start function" none)
  | none => pure ()
  let start := match m.start with
    | some f => [("rt/start", startScript ns m f false)]
    | none => []
  let constants := (blocks ++ library).flatMap (fun r => r.2.constants)
  let init ← initScript ns m constants layout words tables
  let scripts := blocks ++ library ++ indirect
  let functions := scripts.map (fun (path, s) => (inNamespace ns path, s.lines))
    ++ exports.map (fun e => (e.function, (startScript ns m e.index true).lines))
    ++ (start ++ [("init", init)]).map (fun (path, s) => (inNamespace ns path, s.lines))
  functions.forM (fun f => checkFunctionName f.1)
  let functions := byName functions
  if let some f := lineFault? functions then throw (.noBytes f)
  return {
    ns := ns
    functions := functions
    exports := exports
    hasStart := m.start.isSome
    memory := layout
    options := o
    load := [inNamespace ns "init"]
    tick := if o.budget.isSome then [inNamespace ns "rt/tick"] else []
    compiled := compiled }

end ScoreWasm.Pack
