import ScoreWasm.Wasm.NumOp

/-!
# Opcodes

An opcode is an instruction without its immediates.  Every opcode has a byte in binary modules, a
name in text, and a kind of immediates.  Plain and typed `select` share a name.
-/

namespace ScoreWasm.Wasm

/-- An instruction without its immediates. -/
inductive Opcode where
  | unreachable
  | nop
  | block
  | loop
  | if_
  | else_
  | end_
  | br
  | brIf
  | brTable
  | ret
  | call
  | callIndirect
  | drop
  | select
  | selectTyped
  | localGet
  | localSet
  | localTee
  | globalGet
  | globalSet
  | load (op : LoadOp)
  | store (op : StoreOp)
  | memorySize
  | memoryGrow
  | const (t : ValType)
  | num (op : NumOp)
  deriving DecidableEq, Repr

inductive Immediate where
  | none
  | block
  | label
  | func
  | localVar
  | globalVar
  | brTable
  | callIndirect
  | memarg
  | memory
  | const (t : ValType)
  | types
  deriving DecidableEq, Repr

namespace Immediate

def name? : Immediate → Option String
  | none => Option.none
  | block => some "block"
  | label => some "label"
  | func => some "func"
  | localVar => some "local"
  | globalVar => some "global"
  | brTable => some "br_table"
  | callIndirect => some "call_indirect"
  | memarg => some "memarg"
  | memory => some "memory"
  | const t => some t.name
  | types => some "select_t"

end Immediate

namespace Opcode

def control : List (UInt8 × Opcode) :=
  [(0x00, unreachable), (0x01, nop), (0x02, block), (0x03, loop), (0x04, if_), (0x05, else_),
   (0x0b, end_), (0x0c, br), (0x0d, brIf), (0x0e, brTable), (0x0f, ret), (0x10, call),
   (0x11, callIndirect), (0x1a, drop), (0x1b, select), (0x1c, selectTyped), (0x20, localGet),
   (0x21, localSet), (0x22, localTee), (0x23, globalGet), (0x24, globalSet), (0x3f, memorySize),
   (0x40, memoryGrow), (0x41, const .i32), (0x42, const .i64), (0x43, const .f32),
   (0x44, const .f64)]

def table : List (UInt8 × Opcode) :=
  control
    ++ LoadOp.all.mapIdx (fun i op => (UInt8.ofNat (0x28 + i), load op))
    ++ StoreOp.all.mapIdx (fun i op => (UInt8.ofNat (0x36 + i), store op))
    ++ NumOp.all.mapIdx (fun i op => (UInt8.ofNat (0x45 + i), num op))

def byte (o : Opcode) : UInt8 :=
  ((table.find? (fun e => e.2 == o)).map Prod.fst).getD 0

def ofByte? (b : UInt8) : Option Opcode :=
  (table.find? (fun e => e.1 == b)).map Prod.snd

def name : Opcode → String
  | unreachable => "unreachable"
  | nop => "nop"
  | block => "block"
  | loop => "loop"
  | if_ => "if"
  | else_ => "else"
  | end_ => "end"
  | br => "br"
  | brIf => "br_if"
  | brTable => "br_table"
  | ret => "return"
  | call => "call"
  | callIndirect => "call_indirect"
  | drop => "drop"
  | select => "select"
  | selectTyped => "select"
  | localGet => "local.get"
  | localSet => "local.set"
  | localTee => "local.tee"
  | globalGet => "global.get"
  | globalSet => "global.set"
  | load op => op.name
  | store op => op.name
  | memorySize => "memory.size"
  | memoryGrow => "memory.grow"
  | const t => t.name ++ ".const"
  | num op => op.name

def names : List (String × Opcode) := table.map (fun e => (e.2.name, e.2))

/-- The opcode with a name; `select` is the plain one. -/
def named? (s : String) : Option Opcode :=
  (names.find? (fun e => e.1 == s)).map Prod.snd

def immediate : Opcode → Immediate
  | block => .block
  | loop => .block
  | if_ => .block
  | br => .label
  | brIf => .label
  | brTable => .brTable
  | call => .func
  | callIndirect => .callIndirect
  | selectTyped => .types
  | localGet => .localVar
  | localSet => .localVar
  | localTee => .localVar
  | globalGet => .globalVar
  | globalSet => .globalVar
  | load _ => .memarg
  | store _ => .memarg
  | memorySize => .memory
  | memoryGrow => .memory
  | const t => .const t
  | _ => .none

end Opcode

end ScoreWasm.Wasm
