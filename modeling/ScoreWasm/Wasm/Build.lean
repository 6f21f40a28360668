import ScoreWasm.Wasm.Binary.Encode
import ScoreWasm.Wasm.Flat

/-!
# Building modules

Small steps that grow a module.  Function types are shared, a function body gets the end that it
lacks, and the names given to functions end up in a custom section.
-/

namespace ScoreWasm.Wasm.Module

def internType (m : Module) (t : FuncType) : Module × Nat :=
  match m.types.idxOf? t with
  | some i => (m, i)
  | none => ({ m with types := m.types ++ [t] }, m.types.length)

/-- Imports a function; `none` if functions have been defined already. -/
def importFunction? (m : Module) (module name : String) (t : FuncType) : Option Module :=
  if m.functions.isEmpty then
    let (m, i) := m.internType t
    some { m with imports := m.imports ++ [⟨module, name, .func i⟩] }
  else none

/-- How many blocks a body leaves open, minus one if its own end is present. -/
def openBlocks (body : List Instr) : Int :=
  body.foldl (fun depth i =>
    if i.opensBlock then depth + 1 else if i == .end_ then depth - 1 else depth) 0

def exportAs (m : Module) (name : Option String) (kind : ExternKind) (index : Int) : Module :=
  match name with
  | none => m
  | some n => if n.isEmpty then m else { m with exports := m.exports ++ [⟨n, .known kind, index⟩] }

def addFunction (m : Module) (t : FuncType) (locals : List ValType) (body : List Instr)
    (exportName name : Option String) : Module :=
  let body := if 0 ≤ openBlocks body then body ++ [.end_] else body
  let (m, type) := m.internType t
  let f : Function := ⟨type, locals, body.map Placed.new, 0⟩
  let m := { m with functions := m.functions ++ [f] }
  let index := m.funcCount - 1
  let m := m.exportAs exportName .func index
  match name with
  | none => m
  | some n => if n.isEmpty then m else { m with names := m.names.set index n }

def addMemory (m : Module) (l : Limits) (exportName : Option String) : Module :=
  let m := { m with memories := m.memories ++ [l] }
  m.exportAs exportName .memory (m.memories.length - 1)

/-- Defines a global with a constant, whose type is the one named up to the first point. -/
def addGlobal (m : Module) (t : GlobalType) (value : Int) (exportName : Option String) : Module :=
  let constant := ValType.ofName (Text.before "." t.type.name)
  let g : Global := ⟨t, [.new (.const constant value)]⟩
  let m := { m with globals := m.globals ++ [g] }
  m.exportAs exportName .global (m.globalTypes.length - 1)

def addData (m : Module) (offset : Int) (data : List UInt8) (memory : Int) : Module :=
  { m with data := m.data ++ [⟨.active memory [.new (.const .i32 offset)], data⟩] }

def addElements (m : Module) (offset : Int) (funcs : List Int) (table : Int) : Module :=
  { m with elements := m.elements ++ [⟨.active table [.new (.const .i32 offset)], funcs⟩] }

/-- The module with the names of its functions written into a custom section. -/
def build (m : Module) : Except CompileError Module := do
  if m.names.isEmpty then return m
  let names : Custom := ⟨"name", ← Binary.nameSection m.names⟩
  return { m with customs := m.customs.filter (·.name != "name") ++ [names] }

end ScoreWasm.Wasm.Module
