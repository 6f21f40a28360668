import ScoreWasm.Wasm.Error
import ScoreWasm.Wasm.Module

/-!
# Writing binary modules

Integers are written in the fewest bytes, sections that would be empty are left out, and custom
sections come last.
-/

namespace ScoreWasm.Wasm.Binary

abbrev Written := Except CompileError (List UInt8)

/-- An unsigned integer, seven bits a byte with the lowest first.  Every byte but the last has its top
bit set. -/
def unsigned (n : Nat) : List UInt8 :=
  if n < 128 then [UInt8.ofNat n]
  else UInt8.ofNat (128 + n % 128) :: unsigned (n / 128)

/-- A signed integer in at most `fuel` bytes: the last byte has the sign in its seventh bit. -/
def signedBytes : Nat → Int → List UInt8
  | 0, _ => []
  | fuel + 1, i =>
    let b := (i.emod 128).toNat
    let rest := i.fdiv 128
    if (rest == 0 && b < 64) || (rest == -1 && 64 ≤ b) then [UInt8.ofNat b]
    else UInt8.ofNat (128 + b) :: signedBytes fuel rest

def signed (i : Int) : List UInt8 := signedBytes (i.natAbs.log2 / 7 + 2) i

/-- A number in a fixed count of bytes, the lowest first, if it fits. -/
def fixed (count : Nat) (i : Int) : Written :=
  if 0 ≤ i && i < 2 ^ (8 * count) then
    .ok ((List.range count).map (fun k => UInt8.ofNat (i.toNat / 2 ^ (8 * k))))
  else .error .noRoom

def counted (bs : List UInt8) : List UInt8 := unsigned bs.length ++ bs

def name (s : String) : Written := do
  return counted (← (Text.utf8 s).mapError .noBytes)

def concat {α : Type} (f : α → Written) (items : List α) : Written := do
  return (← items.mapM f).flatten

/-- Items with their count in front, where writing one may fail. -/
def vectorM {α : Type} (f : α → Written) (items : List α) : Written := do
  return unsigned items.length ++ (← concat f items)

def index (i : Int) : Written :=
  match i with
  | .ofNat n => .ok (unsigned n)
  | .negSucc _ => .error .noRoom

def valType (t : ValType) : Written :=
  match t.code? with
  | some b => .ok [b]
  | none => .error (.noType t.name)

def funcType (t : FuncType) : Written := do
  return 0x60 :: ((← vectorM valType t.params) ++ (← vectorM valType t.results))

def limits (l : Limits) : Written := do
  match l.max with
  | none => return 0x00 :: (← index l.min)
  | some max => return 0x01 :: ((← index l.min) ++ (← index max))

def table (l : Limits) : Written := do return 0x70 :: (← limits l)

def globalType (g : GlobalType) : Written := do
  return (← valType g.type) ++ [if g.isMutable then 1 else 0]

def blockType : BlockType → Written
  | .empty => .ok [0x40]
  | .value t => valType t
  | .index i => .ok (signed i)

def memArg (a : MemArg) : Written :=
  match a.align with
  | .ofNat e => do return unsigned e ++ (← index a.offset)
  | .negSucc _ => .error .noAlignment

def immediates : Instr → Written
  | .block t => blockType t
  | .loop t => blockType t
  | .if_ t => blockType t
  | .br n => index n
  | .brIf n => index n
  | .brTable labels d => do return (← vectorM index labels) ++ (← index d)
  | .call n => index n
  | .callIndirect type table => do return (← index type) ++ (← index table)
  | .select (some (t :: ts)) => vectorM valType (t :: ts)
  | .localGet n => index n
  | .localSet n => index n
  | .localTee n => index n
  | .globalGet n => index n
  | .globalSet n => index n
  | .load _ arg => memArg arg
  | .store _ arg => memArg arg
  | .memorySize => .ok [0x00]
  | .memoryGrow => .ok [0x00]
  | .const .i32 v => .ok (signed v)
  | .const .i64 v => .ok (signed v)
  | .const .f32 v => fixed 4 v
  | .const .f64 v => fixed 8 v
  | .const (.other s) _ => .error (.noType s)
  | _ => .ok []

def instr (i : Instr) : Written := do
  return i.opcode.byte :: (← immediates i)

def instrs (is : List Instr) : Written := concat instr is

def expr (e : Expr) : Written := do
  return (← instrs (e.map Placed.instr)) ++ [0x0b]

def import_ (i : Import) : Written := do
  let head := (← name i.module) ++ (← name i.name) ++ [i.desc.kind.code]
  match i.desc with
  | .func t => return head ++ (← index t)
  | .table l => return head ++ (← table l)
  | .memory l => return head ++ (← limits l)
  | .global g => return head ++ (← globalType g)

def export_ (e : Export) : Written := do
  let head ← name e.name
  match e.kind with
  | .known k => return head ++ [k.code] ++ (← index e.index)
  | .unknown s => throw (.noExportKind s)

def element (e : ElemSegment) : Written := do
  let funcs ← vectorM index e.funcs
  match e.mode with
  | .passive => return [0x01, 0x00] ++ funcs
  | .declarative => return [0x03, 0x00] ++ funcs
  | .active t x =>
    let offset ← expr x
    if t == 0 then return 0x00 :: (offset ++ funcs)
    else return 0x02 :: ((← index t) ++ offset ++ [0x00] ++ funcs)

def data (d : DataSegment) : Written :=
  let payload := counted d.data
  match d.mode with
  | .passive => .ok (0x01 :: payload)
  | .active m x => do
    let offset ← expr x
    if m == 0 then return 0x00 :: (offset ++ payload)
    else return 0x02 :: ((← index m) ++ offset ++ payload)

def runs : List ValType → List (Nat × ValType)
  | [] => []
  | t :: rest =>
    match runs rest with
    | (n, u) :: more => if t == u then (n + 1, u) :: more else (1, t) :: (n, u) :: more
    | [] => [(1, t)]

def locals (ts : List ValType) : Written :=
  vectorM (fun (n, t) => do return unsigned n ++ (← valType t)) (runs ts)

/-- The code of a function; an end that is missing is added. -/
def code (f : Function) : Written := do
  let body := f.body.map Placed.instr
  let body := if body.getLast? == some .end_ then body else body ++ [.end_]
  return counted ((← locals f.locals) ++ (← instrs body))

def sectionBytes (id : UInt8) (payload : List UInt8) : List UInt8 := id :: counted payload

def sectionOf {α : Type} (id : UInt8) (f : α → Written) (items : List α) : Written :=
  if items.isEmpty then .ok [] else do return sectionBytes id (← vectorM f items)

def sectionIndex (id : UInt8) (n : Option Int) : Written :=
  match n with
  | some n => do return sectionBytes id (← index n)
  | none => .ok []

def module (m : Module) : Written := do
  let parts ← [
    sectionOf 1 funcType m.types,
    sectionOf 2 import_ m.imports,
    sectionOf 3 (fun (f : Function) => index f.type) m.functions,
    sectionOf 4 table m.tables,
    sectionOf 5 limits m.memories,
    sectionOf 6 (fun g => do return (← globalType g.type) ++ (← expr g.init)) m.globals,
    sectionOf 7 export_ m.exports,
    sectionIndex 8 m.start,
    sectionOf 9 element m.elements,
    sectionIndex 12 (m.dataCount.map Int.ofNat),
    sectionOf 10 code m.functions,
    sectionOf 11 data m.data].mapM id
  let customs ← concat (fun (c : Custom) => do
    return sectionBytes 0 ((← name c.name) ++ c.payload)) m.customs
  return [0x00, 0x61, 0x73, 0x6d, 0x01, 0x00, 0x00, 0x00] ++ parts.flatten ++ customs

def nameSection (names : NameMap) : Written := do
  return 0x01 :: counted (← vectorM (fun (i, n) => do return unsigned i ++ (← name n)) names)

end ScoreWasm.Wasm.Binary
