import ScoreWasm.Wasm.Error
import ScoreWasm.Wasm.Module

/-!
# Reading binary modules

A reader walks over the bytes of one section and knows its place in the module, so that faults can
name it.  Sections come in a fixed order; custom sections may stand anywhere.  A section of function
names that is malformed counts up to the fault.
-/

namespace ScoreWasm.Wasm.Binary

structure Cursor where
  part : String
  pos : Nat
  rest : List UInt8

abbrev Reader := StateT Cursor (Except CompileError)

/-! ### Bytes and integers -/

def failAt {α : Type} (reason : Invalid) (offset : Nat) : Reader α := fun c =>
  .error (.invalid reason (some c.part) (some offset))

def refuse {α : Type} (feature construct : String) (offset : Nat) : Reader α := fun _ =>
  .error (.unsupported feature construct (some offset))

def position : Reader Nat := fun c => .ok (c.pos, c)

def byte : Reader UInt8 := fun c =>
  match c.rest with
  | b :: rest => .ok (b, { c with pos := c.pos + 1, rest := rest })
  | [] => .error (.invalid .unexpectedEnd (some c.part) (some c.pos))

def peek : Reader UInt8 := fun c =>
  match c.rest with
  | b :: _ => .ok (b, c)
  | [] => .error (.invalid .unexpectedEnd (some c.part) (some c.pos))

def takeExact : Nat → List UInt8 → List UInt8 → Option (List UInt8 × List UInt8)
  | 0, acc, rest => some (acc.reverse, rest)
  | _ + 1, _, [] => none
  | n + 1, acc, b :: rest => takeExact n (b :: acc) rest

def bytes (n : Nat) : Reader (List UInt8) := fun c =>
  match takeExact n [] c.rest with
  | some (taken, rest) => .ok (taken, { c with pos := c.pos + n, rest := rest })
  | none => .error (.invalid .unexpectedEnd (some c.part) (some c.pos))

/-- The bytes of an integer, at most `fuel` of them: the number so far and the count of its bits. -/
def lebDigits (start : Nat) : Nat → Nat → Nat → Reader (Nat × Nat)
  | 0, _, _ => failAt .integerTooLong start
  | fuel + 1, acc, shift => do
    let b ← byte
    let acc := acc + (b.toNat % 128) * 2 ^ shift
    if b < 128 then return (acc, shift + 7) else lebDigits start fuel acc (shift + 7)

/-- An integer of a width.  If it has a sign, this is the highest bit of its last byte. -/
def leb (signed : Bool) (bits : Nat) : Reader Int := do
  let start ← position
  let (n, shift) ← lebDigits start ((bits + 6) / 7) 0 0
  if signed then
    let i : Int := if 2 ^ (shift - 1) ≤ n then (n : Int) - 2 ^ shift else n
    if -(2 ^ (bits - 1)) ≤ i && i < 2 ^ (bits - 1) then return i else failAt .integerTooLarge start
  else if n < 2 ^ bits then return n else failAt .integerTooLarge start

def u32 : Reader Nat := do return (← leb false 32).toNat

def signedLeb (bits : Nat) : Reader Int := leb true bits

/-- An unsigned number of a fixed count of bytes, the lowest first. -/
def fixedNat (count : Nat) : Reader Nat := do
  return (← bytes count).foldr (fun b n => n * 256 + b.toNat) 0

def items {α : Type} (item : Reader α) : Nat → List α → Reader (List α)
  | 0, acc => return acc.reverse
  | n + 1, acc => do
    let a ← item
    items item n (a :: acc)

def vec {α : Type} (item : Reader α) : Reader (List α) := do items item (← u32) []

def nameText : Reader String := do
  let raw ← bytes (← u32)
  match Text.decodeUtf8 raw with
  | .ok s => return s
  | .error _ => failAt .badUtf8 (← position)

def readIndex : Reader Int := do return (← u32)

/-! ### Types -/

def readValType : Reader ValType := do
  let offset ← position
  let b ← byte
  match ValType.ofCode? b with
  | some t => return t
  | none =>
    if b == 0x70 || b == 0x6f then refuse "reference-types" "reference-typed value" offset
    else if b == 0x7b then refuse "simd" "v128 value" offset
    else failAt (.badValueType b) offset

def readFuncType : Reader FuncType := do
  let offset ← position
  let form ← byte
  if form != 0x60 then failAt (.badFuncForm form) offset
  let params ← vec readValType
  let results ← vec readValType
  return ⟨params, results⟩

def readLimits : Reader Limits := do
  let offset ← position
  let flags ← byte
  if flags == 0x02 || flags == 0x03 then refuse "threads" "shared memory" offset
  else if 0x04 ≤ flags && flags ≤ 0x07 then refuse "memory64" "64-bit limits" offset
  else if flags == 0x00 then return ⟨← readIndex, none⟩
  else if flags == 0x01 then
    let min ← readIndex
    return ⟨min, some (← readIndex)⟩
  else failAt (.badLimits flags) offset

def readTable : Reader Limits := do
  let offset ← position
  let code ← byte
  if code == 0x6f then refuse "reference-types" "externref table" offset
  else if code != 0x70 then failAt (.badElemType code) offset
  else readLimits

def readGlobalType : Reader GlobalType := do
  let t ← readValType
  let offset ← position
  let m ← byte
  if m == 0 || m == 1 then return ⟨t, m == 1⟩ else failAt .badMutability offset

def readBlockType : Reader BlockType := do
  let b ← peek
  let offset ← position
  if b == 0x40 then
    discard byte
    return .empty
  else match ValType.ofCode? b with
    | some t => do
      discard byte
      return .value t
    | none =>
      if b == 0x70 || b == 0x6f then refuse "reference-types" "reference-typed block" offset
      else do
        let i ← signedLeb 33
        if i < 0 then failAt .badBlockType offset else return .index i

/-! ### Instructions -/

def readMemArg (offset : Nat) : Reader MemArg := do
  let align ← u32
  if align / 64 % 2 == 1 then refuse "multi-memory" "memory index in memarg" offset
  else return ⟨align, ← readIndex⟩

/-- The memory index of an instruction, which must be zero. -/
def readMemory (offset : Nat) (i : Instr) : Reader Instr := do
  if (← byte) == 0x00 then return i else refuse "multi-memory" "memory index" offset

def readOperands (offset : Nat) : Opcode → Reader Instr
  | .unreachable => return .unreachable none
  | .nop => return .nop
  | .block => do return .block (← readBlockType)
  | .loop => do return .loop (← readBlockType)
  | .if_ => do return .if_ (← readBlockType)
  | .else_ => return .else_
  | .end_ => return .end_
  | .br => do return .br (← readIndex)
  | .brIf => do return .brIf (← readIndex)
  | .brTable => do
    let labels ← vec readIndex
    return .brTable labels (← readIndex)
  | .ret => return .ret
  | .call => do return .call (← readIndex)
  | .callIndirect => do
    let type ← readIndex
    return .callIndirect type (← readIndex)
  | .drop => return .drop
  | .select => return .select none
  | .selectTyped => do return .select (some (← vec readValType))
  | .localGet => do return .localGet (← readIndex)
  | .localSet => do return .localSet (← readIndex)
  | .localTee => do return .localTee (← readIndex)
  | .globalGet => do return .globalGet (← readIndex)
  | .globalSet => do return .globalSet (← readIndex)
  | .load op => do return .load op (← readMemArg offset)
  | .store op => do return .store op (← readMemArg offset)
  | .memorySize => readMemory offset .memorySize
  | .memoryGrow => readMemory offset .memoryGrow
  | .const .i32 => do return .const .i32 (← signedLeb 32)
  | .const .i64 => do return .const .i64 (← signedLeb 64)
  | .const .f32 => do return .const .f32 (← fixedNat 4)
  | .const .f64 => do return .const .f64 (← fixedNat 8)
  | .const (.other name) => return .const (.other name) 0
  | .num op => return .num op

def prefixFeature? (b : UInt8) : Option String :=
  if b == 0xfc then some "bulk-memory"
  else if b == 0xfd then some "simd"
  else if b == 0xfe then some "threads"
  else none

def laterFeature? (b : UInt8) : Option (String × String) :=
  let exceptions := "exception-handling"
  let references := "reference-types"
  let table : List (UInt8 × String × String) :=
    [(0x06, exceptions, "try"), (0x07, exceptions, "catch"), (0x08, exceptions, "throw"),
     (0x09, exceptions, "rethrow"), (0x0a, exceptions, "throw_ref"),
     (0x12, "tail-call", "return_call"), (0x13, "tail-call", "return_call_indirect"),
     (0x14, "function-references", "call_ref"), (0x18, exceptions, "delegate"),
     (0x19, exceptions, "catch_all"), (0x1f, exceptions, "try_table"),
     (0x25, references, "table.get"), (0x26, references, "table.set"),
     (0xd0, references, "ref.null"), (0xd1, references, "ref.is_null"),
     (0xd2, references, "ref.func")]
  (table.find? (fun e => e.1 == b)).map Prod.snd

def readInstr : Reader Placed := do
  let offset ← position
  let b ← byte
  match prefixFeature? b with
  | some feature => do
    let sub ← u32
    refuse feature (hexByte b ++ " " ++ hexNat sub) offset
  | none =>
    match laterFeature? b with
    | some (feature, construct) => refuse feature construct offset
    | none =>
      match Opcode.ofByte? b with
      | some o => return ⟨← readOperands offset o, offset⟩
      | none => failAt (.illegalOpcode b) offset

/-- Instructions up to the end that closes them, at a nesting depth.  Each takes at least one byte. -/
def readInstrs (keepEnd : Bool) : Nat → Nat → List Placed → Reader (List Placed)
  | 0, _, _ => do failAt .unexpectedEnd (← position)
  | fuel + 1, depth, acc => do
    let p ← readInstr
    if p.instr.opensBlock then readInstrs keepEnd fuel (depth + 1) (p :: acc)
    else if p.instr == .end_ then
      if depth == 0 then return (if keepEnd then p :: acc else acc).reverse
      else readInstrs keepEnd fuel (depth - 1) (p :: acc)
    else readInstrs keepEnd fuel depth (p :: acc)

/-- An expression; its end is not part of it. -/
def readExpr : Reader Expr := fun c => readInstrs false (c.rest.length + 1) 0 [] c

/-! ### Parts of sections -/

def readImport : Reader Import := do
  let module ← nameText
  let name ← nameText
  let offset ← position
  let kind ← byte
  match ExternKind.ofCode? kind with
  | some .func => return ⟨module, name, .func (← readIndex)⟩
  | some .table => return ⟨module, name, .table (← readTable)⟩
  | some .memory => return ⟨module, name, .memory (← readLimits)⟩
  | some .global => return ⟨module, name, .global (← readGlobalType)⟩
  | none => failAt (.badImportKind kind) offset

def readExport : Reader Export := do
  let name ← nameText
  let offset ← position
  let kind ← byte
  match ExternKind.ofCode? kind with
  | some k => return ⟨name, .known k, ← readIndex⟩
  | none => failAt (.badExportKind kind) offset

def readGlobal : Reader Global := do
  let t ← readGlobalType
  return ⟨t, ← readExpr⟩

/-- The kind of the elements of a segment, which must be functions. -/
def readElemKind : Reader Unit := do
  let offset ← position
  if (← byte) != 0x00 then failAt .badElemKind offset

def readElement : Reader ElemSegment := do
  let offset ← position
  match ← u32 with
  | 0 => do
    let x ← readExpr
    return ⟨.active 0 x, ← vec readIndex⟩
  | 1 => do
    readElemKind
    return ⟨.passive, ← vec readIndex⟩
  | 2 => do
    let table ← readIndex
    let x ← readExpr
    readElemKind
    return ⟨.active table x, ← vec readIndex⟩
  | 3 => do
    readElemKind
    return ⟨.declarative, ← vec readIndex⟩
  | flags =>
    if flags ≤ 7 then refuse "reference-types" "element expressions" offset
    else failAt (.badElemFlags flags) offset

def readData : Reader DataSegment := do
  let offset ← position
  match ← u32 with
  | 0 => do
    let x ← readExpr
    return ⟨.active 0 x, ← bytes (← u32)⟩
  | 1 => return ⟨.passive, ← bytes (← u32)⟩
  | 2 => do
    let memory ← readIndex
    let x ← readExpr
    return ⟨.active memory x, ← bytes (← u32)⟩
  | flags => failAt (.badDataFlags flags) offset

def maxLocals : Nat := 50000

/-- Groups of locals, `count` of them so far. -/
def readLocals : Nat → Nat → List ValType → Reader (List ValType)
  | 0, _, acc => return acc.reverse
  | n + 1, count, acc => do
    let k ← u32
    let t ← readValType
    if maxLocals < count + k then failAt .tooManyLocals (← position)
    else readLocals n (count + k) (List.replicate k t ++ acc)

def readCode : Reader (List ValType × List Placed × Nat) := do
  let size ← u32
  let start ← position
  fun c =>
    match takeExact size [] c.rest with
    | none => .error (.invalid .codeEntryEnd (some c.part) (some c.pos))
    | some (inside, rest) =>
      let body : Reader (List ValType × List Placed) := do
        let locals ← readLocals (← u32) 0 []
        let instrs ← readInstrs true (inside.length + 1) 0 []
        return (locals, instrs)
      match body { c with rest := inside } with
      | .error e => .error e
      | .ok ((locals, instrs), b) =>
        if b.rest.isEmpty then .ok ((locals, instrs, start), { c with pos := b.pos, rest := rest })
        else .error (.invalid .sectionSize (some b.part) (some b.pos))

/-! ### Names -/

/-- A number of function names; stops at the first fault. -/
def nameEntries : Nat → NameMap → Cursor → NameMap × Bool
  | 0, names, _ => (names, true)
  | n + 1, names, c =>
    let step : Reader (Nat × String) := do
      let i ← u32
      return (i, ← nameText)
    match step c with
    | .ok ((i, s), c) => nameEntries n (names.set i s) c
    | .error _ => (names, false)

/-- The subsections of a section of names; that with number one names functions.  Each takes at
least one byte, and the first fault ends the reading. -/
def nameSubsections : Nat → NameMap → Cursor → NameMap
  | 0, names, _ => names
  | fuel + 1, names, c =>
    if c.rest.isEmpty then names
    else
      let head : Reader (UInt8 × Nat) := do
        let id ← byte
        return (id, ← u32)
      match head c with
      | .error _ => names
      | .ok ((id, size), c) =>
        match takeExact size [] c.rest with
        | none => names
        | some (inside, rest) =>
          let after : Cursor := { c with pos := c.pos + size, rest := rest }
          if id == 1 then
            match u32 { c with rest := inside } with
            | .error _ => names
            | .ok (count, sub) =>
              match nameEntries count names sub with
              | (names, true) => nameSubsections fuel names after
              | (names, false) => names
          else nameSubsections fuel names after

/-! ### Modules -/

def sectionName? (id : UInt8) : Option String :=
  ["custom", "type", "import", "function", "table", "memory", "global", "export", "start",
   "element", "code", "data", "datacount"][id.toNat]?

def sectionRank (id : UInt8) : Nat :=
  ([1, 2, 3, 4, 5, 6, 7, 8, 9, 12, 10, 11] : List UInt8).idxOf id

structure Draft where
  module : Module
  types : List Int
  codes : List (List ValType × List Placed × Nat)

def readCustom (d : Draft) : Reader Draft := do
  let name ← nameText
  fun c =>
    let m := { d.module with customs := d.module.customs ++ [⟨name, c.rest⟩] }
    let m := if name == "name" then
        { m with names :=
            nameSubsections (c.rest.length + 1) m.names { c with part := "custom:name" } }
      else m
    .ok ({ d with module := m }, { c with pos := c.pos + c.rest.length, rest := [] })

def readSection (id : UInt8) (d : Draft) : Reader Draft := do
  let m := d.module
  match id.toNat with
  | 1 => return { d with module := { m with types := ← vec readFuncType } }
  | 2 => return { d with module := { m with imports := ← vec readImport } }
  | 3 => return { d with types := ← vec readIndex }
  | 4 => return { d with module := { m with tables := ← vec readTable } }
  | 5 => return { d with module := { m with memories := ← vec readLimits } }
  | 6 => return { d with module := { m with globals := ← vec readGlobal } }
  | 7 => return { d with module := { m with exports := ← vec readExport } }
  | 8 => return { d with module := { m with start := some (← readIndex) } }
  | 9 => return { d with module := { m with elements := ← vec readElement } }
  | 10 => return { d with codes := ← vec readCode }
  | 11 => return { d with module := { m with data := ← vec readData } }
  | 12 => return { d with module := { m with dataCount := some (← u32) } }
  | _ => readCustom d

/-- The sections of a module.  `next` is the least place in the order that may still come.  Each section
takes at least one byte. -/
def readSections : Nat → Nat → Draft → Cursor → Except CompileError Draft
  | 0, _, d, _ => .ok d
  | fuel + 1, next, d, c =>
    match c.rest with
    | [] => .ok d
    | id :: rest =>
      match sectionName? id with
      | none => .error (.invalid (.badSection id) (some "header") (some c.pos))
      | some part =>
        match u32 ⟨part, c.pos + 1, rest⟩ with
        | .error e => .error e
        | .ok (size, start) =>
          match takeExact size [] start.rest with
          | none => .error (.invalid .sectionSize (some part) (some c.pos))
          | some (inside, after) =>
            let rank := sectionRank id
            if id != 0 && rank < next then
              .error (.invalid .sectionOrder (some part) (some c.pos))
            else
              match readSection id d { start with rest := inside } with
              | .error e => .error e
              | .ok (d, s) =>
                if s.rest.isEmpty then
                  readSections fuel (if id == 0 then next else rank + 1) d
                    ⟨part, s.pos, after⟩
                else .error (.invalid .sectionSize (some part) (some s.pos))

def assemble (d : Draft) : Except CompileError Module :=
  if d.types.length != d.codes.length then .error (.invalid .codeCount (some "code") none)
  else if d.module.dataCount.any (· != d.module.data.length) then
    .error (.invalid .dataCount (some "data") none)
  else
    .ok { d.module with
      functions := List.zipWith (fun t (locals, body, offset) => ⟨t, locals, body, offset⟩)
        d.types d.codes }

def decode (data : List UInt8) : Except CompileError Module :=
  match data with
  | 0x00 :: 0x61 :: 0x73 :: 0x6d :: rest =>
    match rest with
    | a :: b :: c :: d :: body =>
      let version := a.toNat + 256 * (b.toNat + 256 * (c.toNat + 256 * d.toNat))
      if version != 1 then .error (.invalid (.badVersion version) (some "header") (some 4))
      else
        match readSections (body.length + 1) 0 ⟨.empty, [], []⟩ ⟨"header", 8, body⟩ with
        | .ok d => assemble d
        | .error e => .error e
    | _ => .error (.invalid .unexpectedEnd (some "header") (some 4))
  | _ => .error (.invalid .noMagic (some "header") (some 0))

end ScoreWasm.Wasm.Binary
