import ScoreWasm.Emit.Memory
import ScoreWasm.Wasm.Validate
import Std.Data.HashMap

/-!
# The state a program starts in

The size of memory, the words that data segments put there, and the entries of tables.
-/

namespace ScoreWasm.Pack

open Wasm Emit

/-- The pages of memory: at first, and at most. -/
structure MemoryLayout where
  pages : Int
  maxPages : Int
  deriving DecidableEq, Repr

def memoryLayout (m : Module) : Except CompileError (Option MemoryLayout) :=
  match m.memoryLimits with
  | [] => .ok none
  | l :: _ => do
    if Emit.maxPages < l.min then throw (.limit "memory pages" l.min Emit.maxPages)
    match l.max with
    | some most =>
      if Emit.maxPages < most then throw (.limit "memory maximum pages" most Emit.maxPages)
      return some ⟨l.min, most⟩
    | none => return some ⟨l.min, Emit.maxPages⟩

abbrev Words := Std.HashMap Nat Nat

def writeByte (words : Words) (address : Nat) (b : UInt8) : Words :=
  let word := address / 4
  let scale := 256 ^ (address % 4)
  let old := words.getD word 0
  let kept := old - (old / scale % 256) * scale
  words.insert word (kept + b.toNat * scale)

def writeBytes : Words → Nat → List UInt8 → Words
  | words, _, [] => words
  | words, address, b :: rest => writeBytes (writeByte words address b) (address + 1) rest

def writeData (limit : Int) (words : Words) (segment : DataSegment × Nat) :
    Except CompileError Words :=
  let (d, number) := segment
  match d.mode with
  | .passive => .ok words
  | .active _ offset => do
    let start := ((← Validate.constant .i32 "data" offset).emod (2 ^ 32)).toNat
    if limit < start + d.data.length then
      throw (.invalid (.dataOutside number start d.data.length limit) (some "data") none)
    return writeBytes words start d.data

def dataImage (m : Module) (pages : Int) : Except CompileError (List (Nat × Nat)) := do
  let words ← m.data.zipIdx.foldlM (writeData (pages * pageSize)) ∅
  return (words.toList.filter (fun w => w.2 != 0)).mergeSort (fun a b => a.1 ≤ b.1)

def writeEntries : Array Int → Nat → List Int → Array Int
  | entries, _, [] => entries
  | entries, i, f :: rest => writeEntries (entries.setIfInBounds i f) (i + 1) rest

/-- Puts the functions of an element segment into its table, where they must fit.  Imported functions
have no place there. -/
def writeElements (m : Module) (tables : Array (Array Int)) (segment : ElemSegment × Nat) :
    Except CompileError (Array (Array Int)) :=
  let (e, number) := segment
  match e.mode with
  | .active table offset => do
    let some place := position? tables.size table | throw .outOfRange
    let entries := tables.getD place #[]
    let start := ((← Validate.constant .i32 "element" offset).emod (2 ^ 32)).toNat
    if entries.size < start + e.funcs.length then
      throw (.invalid (.elementOutside number table) (some "element") none)
    match e.funcs.find? m.isImport with
    | some f =>
      let some name := m.calledName? f | throw .outOfRange
      throw (.unsupported "host-functions" ("imported function " ++ name ++ " in a table") none)
    | none => return tables.setIfInBounds place (writeEntries entries start e.funcs)
  | _ => .ok tables

/-- The entries of all tables: function indices, or -1 where there is none. -/
def tableContents (m : Module) : Except CompileError (List (List Int)) := do
  let empty := (m.tableLimits.map (fun l => Array.replicate l.min.toNat (-1 : Int))).toArray
  let tables ← m.elements.zipIdx.foldlM (writeElements m) empty
  return tables.toList.map Array.toList

end ScoreWasm.Pack
