import ScoreWasm.Json.Basic
import ScoreWasm.Wasm.Binary.Encode
import ScoreWasm.Wasm.Validate

/-!
# Modules as JSON

All parts of a module as a JSON value, with instructions as arrays of name, operand and place, for
tools that look at modules.
-/

namespace ScoreWasm.Wasm

def natJson (n : Nat) : Json := .int n

def intOrNull : Option Int → Json
  | some n => .int n
  | none => .null

def bytesJson (bytes : List UInt8) : Json :=
  .str (Text.hexText bytes)

def Instr.operandJson : Instr → Json
  | .unreachable kind => (kind.map (fun k => Json.str k.name)).getD .null
  | .block t | .loop t | .if_ t => match t with
    | .empty => .null
    | .value t => .str t.name
    | .index i => .int i
  | .br n | .brIf n | .call n | .localGet n | .localSet n | .localTee n | .globalGet n
  | .globalSet n => .int n
  | .brTable labels d => .arr [.arr (labels.map Json.int), .int d]
  | .callIndirect type table => .arr [.int type, .int table]
  | .select types => (types.map (fun ts => Json.arr (ts.map (fun t => .str t.name)))).getD .null
  | .load _ a | .store _ a => .arr [.int a.align, .int a.offset]
  | .memorySize | .memoryGrow => natJson 0
  | .const _ v => .int v
  | _ => .null

def exprJson (e : List Placed) : Json :=
  .arr (e.map (fun p => .arr [.str p.instr.name, p.instr.operandJson, natJson p.offset]))

def Limits.outline (l : Limits) : Json := .arr [.int l.min, intOrNull l.max]

def tableJson (l : Limits) : Json := .arr [.str "funcref", l.outline]

def GlobalType.outline (g : GlobalType) : List Json := [.str g.type.name, .bool g.isMutable]

def localsJson (types : List ValType) : Json :=
  .arr ((Binary.runs types).map (fun (n, t) => .arr [natJson n, .str t.name]))

def namesJson (names : NameMap) : Json :=
  .arr (names.map (fun (i, n) => .arr [natJson i, .str n]))

def Import.outline (i : Import) : Json :=
  .arr [.str i.module, .str i.name, .str i.desc.kind.name, match i.desc with
    | .func t => .int t
    | .table l => tableJson l
    | .memory l => l.outline
    | .global g => .arr g.outline]

def Function.outline (f : Function) : Json :=
  .obj [("type", .int f.type), ("locals", localsJson f.locals), ("body", exprJson f.body),
    ("offset", natJson f.offset)]

def ElemSegment.outline (e : ElemSegment) : Json :=
  let funcs : Json := .arr (e.funcs.map Json.int)
  match e.mode with
  | .active t x => .arr [.str "active", .int t, exprJson x, funcs]
  | .passive => .arr [.str "passive", natJson 0, .null, funcs]
  | .declarative => .arr [.str "declarative", natJson 0, .null, funcs]

def DataSegment.outline (d : DataSegment) : Json :=
  match d.mode with
  | .active t x => .arr [.str "active", .int t, exprJson x, bytesJson d.data]
  | .passive => .arr [.str "passive", natJson 0, .null, bytesJson d.data]

def Module.outline (m : Module) : Json :=
  .obj [
    ("types", .arr (m.types.map (fun t => .str t.text))),
    ("imports", .arr (m.imports.map Import.outline)),
    ("functions", .arr (m.functions.map Function.outline)),
    ("tables", .arr (m.tables.map tableJson)),
    ("memories", .arr (m.memories.map Limits.outline)),
    ("globals", .arr (m.globals.map (fun g => .arr (g.type.outline ++ [exprJson g.init])))),
    ("exports", .arr (m.exports.map (fun e =>
      .arr [.str e.name, .str e.kind.name, .int e.index]))),
    ("start", intOrNull m.start),
    ("elements", .arr (m.elements.map ElemSegment.outline)),
    ("data", .arr (m.data.map DataSegment.outline)),
    ("data_count", intOrNull (m.dataCount.map Int.ofNat)),
    ("customs", .arr (m.customs.map (fun c => .arr [.str c.name, bytesJson c.payload]))),
    ("names", namesJson m.names),
    ("num_funcs", natJson m.funcCount)]

/-! ### Checked code -/

/-- The type of an operand, or nothing if any type will do. -/
def operandTypeJson : Option ValType → Json
  | some t => .str t.name
  | none => .null

def Checked.outline (c : Checked) : Json := .arr [.str c.instr.name, natJson c.height,
  (c.blockType.map (fun t => Json.str t.text)).getD .null, operandTypeJson c.valueType,
  (c.stack.map (fun ts => Json.arr (ts.map operandTypeJson))).getD .null]

def Validated.outline (v : Validated) : Json := .obj
  [("functions", .arr (v.bodies.map (fun b => .arr (b.map Checked.outline)))),
   ("function_names", .arr ((List.range v.module.funcCount).map
     (fun f => .str (v.module.functionName f))))]

end ScoreWasm.Wasm
