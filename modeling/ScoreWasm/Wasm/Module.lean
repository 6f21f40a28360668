import ScoreWasm.Data.Index
import ScoreWasm.Wasm.Instr

/-!
# Modules

Functions, tables, memories and globals each have one index space in which the imported ones come
first.  A negative index of a type, a table or a global counts from the end, and one of a function
from the last import.
-/

namespace ScoreWasm.Wasm

inductive ExternKind where
  | func
  | table
  | memory
  | global
  deriving DecidableEq, Repr

namespace ExternKind

def all : List ExternKind := [func, table, memory, global]

def name : ExternKind → String
  | func => "func"
  | table => "table"
  | memory => "memory"
  | global => "global"

def code : ExternKind → UInt8
  | func => 0
  | table => 1
  | memory => 2
  | global => 3

def ofCode? (b : UInt8) : Option ExternKind := all.find? (fun k => k.code == b)

def named? (s : String) : Option ExternKind := all.find? (fun k => k.name == s)

end ExternKind

/-- What is imported; the type of a function is an index that may count from the last type. -/
inductive ImportDesc where
  | func (type : Int)
  | table (limits : Limits)
  | memory (limits : Limits)
  | global (type : GlobalType)
  deriving DecidableEq, Repr

def ImportDesc.kind : ImportDesc → ExternKind
  | func _ => .func
  | table _ => .table
  | memory _ => .memory
  | global _ => .global

structure Import where
  module : String
  name : String
  desc : ImportDesc
  deriving DecidableEq, Repr

/-- The kind of an export, which need not be a kind that exists. -/
inductive ExportKind where
  | known (k : ExternKind)
  | unknown (name : String)
  deriving DecidableEq, Repr

namespace ExportKind

def ofName (s : String) : ExportKind :=
  match ExternKind.named? s with
  | some k => known k
  | none => unknown s

def name : ExportKind → String
  | known k => k.name
  | unknown s => s

end ExportKind

structure Export where
  name : String
  kind : ExportKind
  index : Int
  deriving DecidableEq, Repr

abbrev Expr := List Placed

structure Global where
  type : GlobalType
  init : Expr
  deriving DecidableEq, Repr

inductive ElemMode where
  | active (table : Int) (offset : Expr)
  | passive
  | declarative
  deriving DecidableEq, Repr

structure ElemSegment where
  mode : ElemMode
  funcs : List Int
  deriving DecidableEq, Repr

inductive DataMode where
  | active (memory : Int) (offset : Expr)
  | passive
  deriving DecidableEq, Repr

structure DataSegment where
  mode : DataMode
  data : List UInt8
  deriving DecidableEq, Repr

structure Function where
  type : Int
  locals : List ValType
  body : List Placed
  offset : Nat
  deriving DecidableEq, Repr

/-- The names of functions by index, in increasing order of the index. -/
abbrev NameMap := List (Nat × String)

def NameMap.set (index : Nat) (name : String) : NameMap → NameMap
  | [] => [(index, name)]
  | (i, n) :: rest =>
    if index < i then (index, name) :: (i, n) :: rest
    else if index == i then (index, name) :: rest
    else (i, n) :: NameMap.set index name rest

def NameMap.get? (m : NameMap) (index : Nat) : Option String :=
  (m.find? (fun e => e.1 == index)).map Prod.snd

structure Custom where
  name : String
  payload : List UInt8
  deriving DecidableEq, Repr

structure Module where
  types : List FuncType
  imports : List Import
  functions : List Function
  tables : List Limits
  memories : List Limits
  globals : List Global
  exports : List Export
  start : Option Int
  elements : List ElemSegment
  data : List DataSegment
  dataCount : Option Nat
  customs : List Custom
  names : NameMap
  deriving DecidableEq, Repr

namespace Module

def empty : Module :=
  ⟨[], [], [], [], [], [], [], none, [], [], none, [], []⟩

def funcImports (m : Module) : List (Import × Int) :=
  m.imports.filterMap (fun i => match i.desc with
    | .func t => some (i, t)
    | _ => none)

def importCount (m : Module) : Nat := m.funcImports.length

def funcCount (m : Module) : Nat := m.importCount + m.functions.length

/-- Whether a function index is that of an import, as all negative ones are. -/
def isImport (m : Module) (f : Int) : Bool := f < m.importCount

def typeAt? (m : Module) (type : Int) : Option FuncType := elementAt? m.types type

def typeIndex? (m : Module) (f : Int) : Option Int :=
  if m.isImport f then (elementAt? m.funcImports f).map Prod.snd
  else (m.functions[(f - m.importCount).toNat]?).map Function.type

def funcType? (m : Module) (f : Int) : Option FuncType := (m.typeIndex? f).bind m.typeAt?

def funcType (m : Module) (f : Int) : FuncType := (m.funcType? f).getD ⟨[], []⟩

def globalTypes (m : Module) : List GlobalType :=
  m.imports.filterMap (fun i => match i.desc with
    | .global t => some t
    | _ => none) ++ m.globals.map Global.type

def tableLimits (m : Module) : List Limits :=
  m.imports.filterMap (fun i => match i.desc with
    | .table l => some l
    | _ => none) ++ m.tables

def memoryLimits (m : Module) : List Limits :=
  m.imports.filterMap (fun i => match i.desc with
    | .memory l => some l
    | _ => none) ++ m.memories

def importName? (m : Module) (f : Int) : Option String :=
  (elementAt? m.funcImports f).map (fun (i, _) => i.module ++ "." ++ i.name)

/-- The name of a function: the one given to it, else that of its import or of its first export, else
one made from its index. -/
def functionName (m : Module) (f : Nat) : String :=
  match m.names.get? f with
  | some n => n
  | none =>
    match m.importName? f with
    | some n => n
    | none =>
      match m.exports.find? (fun e => e.kind == .known .func && e.index == (f : Int)) with
      | some e => e.name
      | none => "f" ++ toString f

/-- The name of a function by an index that may count from the last import. -/
def calledName? (m : Module) (f : Int) : Option String :=
  if 0 ≤ f then some (m.functionName f.toNat) else m.importName? f

def forgetExpr (e : Expr) : Expr := e.map (fun p => { p with offset := 0 })

def forgetPlaces (m : Module) : Module :=
  { m with
    functions := m.functions.map (fun f => { f with body := forgetExpr f.body, offset := 0 })
    globals := m.globals.map (fun g => { g with init := forgetExpr g.init })
    elements := m.elements.map (fun e => { e with mode := match e.mode with
      | .active t x => .active t (forgetExpr x)
      | other => other })
    data := m.data.map (fun d => { d with mode := match d.mode with
      | .active t x => .active t (forgetExpr x)
      | other => other }) }

end Module

end ScoreWasm.Wasm
