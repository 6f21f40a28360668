import ScoreWasm.Files.Session
import ScoreWasm.Json.Equal
import ScoreWasm.Json.Literal
import ScoreWasm.Pack.Manifest

/-!
# Packs in directories

A pack is written as a directory that the game can load: one file for each function, two tags that
name the functions to run, and the manifest.  A pack that is read back may have been changed since;
its functions are then only known as text, and the digest in its manifest tells whether they are still
the written ones.
-/

namespace ScoreWasm.Pack

open Files

/-- Why a directory cannot be used as a pack.  The five from `json` on have no wording: text that is
no JSON, a manifest that is no object, one without a namespace, one whose namespace is no text, and
a list that is none or holds what cannot stand in it. -/
inductive DirectoryFault where
  | file (f : FileFault)
  | notPack (root : String) (format : Json)
  | changed (dir : String)
  | noSignatures
  | json (f : Json.Fault)
  | notObject
  | noNamespace
  | badNamespace
  | badList

def DirectoryFault.message? : DirectoryFault → Option String
  | notPack root format =>
    some (root ++ " is not a wasmcraft datapack (format " ++ format.literal ++ ")")
  | changed dir => some (dir ++ ": function bodies do not match the manifest digest")
  | noSignatures =>
    some ("Cryptography support is unavailable; install the " ++ Text.quoted "cryptography"
      ++ " package")
  | _ => none

def DirectoryFault.text : DirectoryFault → String
  | file f => f.text
  | json f => f.text
  | f => f.message?.getD ""

/-! ### Files of a pack -/

def functionFile? (root name : String) : Option String :=
  (Text.cutAt? ":" name).map (fun (ns, path) =>
    child (child (child (child root "data") ns) "function") (path ++ ".mcfunction"))

def tagFile (root tag : String) : String :=
  child root ("data/minecraft/tags/function/" ++ tag ++ ".json")

def manifestFile (root : String) : String := child root "manifest.json"

def signatureFile (root : String) : String := child root "manifest.sig"

def jsonFile (v : Json) : String := v.indented ++ "\n"

def tagJson (names : List String) : Json := .obj [("values", .arr (names.map .str))]

def metaJson (ns : String) : Json :=
  .obj [("pack", .obj [("pack_format", .int 48),
    ("description", .str ("WebAssembly module (" ++ ns ++ ")"))])]

def fileText (lines : List String) : String := String.join (lines.map (· ++ "\n"))

def files (p : Pack) (root : String) : List (String × String) :=
  [(child root "pack.mcmeta", jsonFile (metaJson p.ns))]
    ++ p.texts.filterMap (fun (name, lines) =>
        (functionFile? root name).map (fun file => (file, fileText lines)))
    ++ [(tagFile root "load", jsonFile (tagJson p.load))]
    ++ (if p.tick.isEmpty then [] else [(tagFile root "tick", jsonFile (tagJson p.tick))])
    ++ [(manifestFile root, jsonFile p.manifest)]

def write (p : Pack) (dir : String) : Action FileFault String := do
  let root := normalize dir
  makeDirectories (rootOf root) (parts root).reverse
  for (file, text) in p.files root do
    writeText file text
  say ("  ✓ Datapack written → " ++ root ++ " (" ++ toString p.functions.length ++ " functions)")
  return root

/-! ### Reading a pack -/

/-- A pack as it was read from a directory, its functions in the order of their names. -/
structure Stored where
  ns : String
  functions : List (String × List String)
  manifest : Json
  load : List Json
  tick : List Json

def readJson (path : String) : Action DirectoryFault Json := do
  match Json.parse (← EStateM.adaptExcept .file (readText path)) with
  | .ok v => return v
  | .error f => throw (.json f)

/-- The items of what a tag lists: a text lists its characters, an object the names of its fields. -/
def listed : Json → Action DirectoryFault (List Json)
  | .arr items => return items
  | .str s => return (Text.singles s).map .str
  | .obj fields => return fields.map (fun f => .str f.1)
  | _ => throw .badList

def ifPresent {α : Type} (act : Action DirectoryFault α) : Action DirectoryFault (Option α) :=
  tryCatch (some <$> act) (fun f => match f with
    | .file (.missing _) => return none
    | _ => throw f)

/-- What a tag lists; a missing tag lists nothing. -/
def readTag (root tag : String) : Action DirectoryFault (List Json) := do
  match ← ifPresent (readJson (tagFile root tag)) with
  | none => return []
  | some (.obj fields) => listed ((fields.lookup "values").getD (.arr []))
  | some _ => throw .notObject

def functionEnding : String := ".mcfunction"

def functionPath? (file : String) : Option String :=
  if file.endsWith functionEnding then some (withoutExtension file) else none

def readFunctions (ns base : String) : Action DirectoryFault (List (String × List String)) := do
  let files ← EStateM.adaptExcept .file (filesUnder base)
  let functions ← files.filterMapM (fun (file, _) => do
    match functionPath? file with
    | some path =>
      let text ← EStateM.adaptExcept .file (readText (child base file))
      return some (Emit.inNamespace ns path, Text.lines text)
    | none => return none)
  return byName functions

def read (dir : String) : Action DirectoryFault Stored := do
  let root := normalize dir
  let manifest ← readJson (manifestFile root)
  match manifest with
  | .obj fields =>
    let format := (fields.lookup "format").getD .null
    if format.str? != some "wasmcraft-manifest/1" then throw (.notPack root format)
    match fields.lookup "namespace" with
    | none => throw .noNamespace
    | some (.str ns) =>
      let functions ← readFunctions ns (child (child (child root "data") ns) "function")
      return ⟨ns, functions, manifest, ← readTag root "load", ← readTag root "tick"⟩
    | some _ => throw .badNamespace
  | _ => throw .notObject

namespace Stored

def fullName (p : Stored) (name : String) : String :=
  if name.toList.contains ':' then name else Emit.inNamespace p.ns name

def lines? (p : Stored) (name : String) : Option (List String) := p.functions.lookup (p.fullName name)

def digest (p : Stored) : Action DirectoryFault String :=
  match Pack.digest p.functions with
  | .ok digest => return digest
  | .error f => throw (.file (.noBytes f))

/-- A part of the manifest; nothing if it is missing. -/
def part (p : Stored) (name : String) : Json := (p.manifest.field? name).getD .null

/-- Whether the functions are those that the manifest was written for. -/
def isIntact (p : Stored) : Action DirectoryFault Bool := do
  return (p.part "digest").str? == some (← p.digest)

def outline (p : Stored) : Json := .obj
  [("namespace", .str p.ns), ("digest", p.part "digest"), ("load", .arr p.load),
   ("functions", .arr (p.functions.map (fun (n, ls) => .arr [.str n, .int ls.length]))),
   ("tick", .arr p.tick)]

end Stored

def textProgram (ns : String) (functions : List (String × List String)) (manifest : Json)
    (load tick : List Json) : Machine.Program where
  namespaceName := ns
  functions := Std.HashMap.ofList (functions.map (fun (name, lines) =>
    (name, Machine.Function.ofLines (lines.map Line.ofText))))
  manifest := manifest
  load := load
  tick := tick
  maxCommands := 65536
  strict := true

def Stored.program (p : Stored) : Machine.Program :=
  textProgram p.ns p.functions p.manifest p.load p.tick

/-! ### Comparing packs -/

def hashDirectory (dir : String) : Action DirectoryFault String := do
  let digest ← (← read dir).digest
  say ("SHA256(" ++ dir ++ ") = " ++ digest)
  return digest

inductive Difference where
  | removed (path : String)
  | added (path : String)
  | changed (path : String) (before after : Nat)
  | exports (names : List Json)

def Difference.outline : Difference → Json
  | removed path => .arr [.str "removed", .str path]
  | added path => .arr [.str "added", .str path]
  | changed path _ _ => .arr [.str "changed", .str path]
  | exports names => .arr [.str "exports", .arr names]

def Difference.text : Difference → String
  | removed path => "  - " ++ path
  | added path => "  + " ++ path
  | changed path before after =>
    "  • " ++ path ++ " (" ++ toString before ++ " vs " ++ toString after ++ " commands)"
  | exports _ => "  • Exported functions differ"

def sortedTexts (names : List String) : List String :=
  (Text.sortBy id names).eraseDups

def pathDifference (before after : List (String × List String)) (path : String) :
    Option Difference :=
  match before.lookup path, after.lookup path with
  | some _, none => some (.removed path)
  | none, some _ => some (.added path)
  | some a, some b => if a == b then none else some (.changed path a.length b.length)
  | none, none => none

def Stored.byPath (p : Stored) : List (String × List String) :=
  p.functions.map (fun (name, lines) => ((splitName name).2, lines))

/-- What a pack exports; nothing is an empty object. -/
def Stored.exports (p : Stored) : Json := (p.manifest.field? "exports").getD (.obj [])

/-- The values that a list holds, each once, among which there may be no arrays or objects. -/
def members (j : Json) : Action DirectoryFault (List Json) := do
  let items ← listed j
  if items.any (fun i => i.arr?.isSome || i.obj?.isSome) then throw .badList
  return items.foldl (fun done i => if done.any (i.partEquals ·) then done else done ++ [i]) []

def exportDifference (a b : Json) : Action DirectoryFault (List Json) := do
  let as ← members a
  let bs ← members b
  match Json.sorted? (as.filter (fun x => !bs.any (x.partEquals ·))
    ++ bs.filter (fun x => !as.any (x.partEquals ·))) with
  | some names => return names
  | none => throw .badList

def functionDifferences (a b : Stored) : List Difference :=
  let paths := sortedTexts ((a.byPath ++ b.byPath).map Prod.fst)
  paths.filterMap (pathDifference a.byPath b.byPath)

def diffDirectories (dirA dirB : String) : Action DirectoryFault (List Difference) := do
  let a ← read dirA
  let b ← read dirB
  let digestA ← a.digest
  let digestB ← b.digest
  if digestA == digestB && (a.part "exports").equals (b.part "exports") then
    say ("✓ Datapacks are identical (" ++ digestA ++ ")")
    return []
  say ("✗ Datapacks differ\n  " ++ dirA ++ ": " ++ digestA ++ "\n  " ++ dirB ++ ": " ++ digestB)
  let found := functionDifferences a b
  for d in found do
    say d.text
  if a.exports.equals b.exports then return found
  let d := Difference.exports (← exportDifference a.exports b.exports)
  say d.text
  return found ++ [d]

/-! ### Signatures

A pack is signed by its digest.  There are no keys to sign with, so an intact pack cannot be signed
and no signature can be verified. -/

def signDirectory (dir : String) : Action DirectoryFault Unit := do
  if !(← (← read dir).isIntact) then throw (.changed dir)
  throw .noSignatures

def verifyDirectory (dir : String) : Action DirectoryFault Bool := do
  let p ← read dir
  if (← ifPresent (EStateM.adaptExcept .file (readText (signatureFile dir)))).isNone then
    say ("✗ " ++ dir ++ " is not signed")
    return false
  if !(← p.isIntact) then
    say "✗ Function bodies do not match the manifest digest"
    return false
  throw .noSignatures

end ScoreWasm.Pack
