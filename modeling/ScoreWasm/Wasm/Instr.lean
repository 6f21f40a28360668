import ScoreWasm.Wasm.Opcode
import ScoreWasm.Wasm.Trap

/-!
# Instructions
-/

namespace ScoreWasm.Wasm

inductive BlockType where
  | empty
  | value (t : ValType)
  | index (i : Int)
  deriving DecidableEq, Repr

/-- The static part of an address: the exponent of the promised alignment, and an offset. -/
structure MemArg where
  align : Int
  offset : Int
  deriving DecidableEq, Repr

/-- An instruction.  `unreachable` may carry the kind of trap that it stands for.  Constants of
floating-point types are bit patterns.  Negative indices count from the end, and negative labels from
the outermost block. -/
inductive Instr where
  | unreachable (kind : Option Trap)
  | nop
  | block (t : BlockType)
  | loop (t : BlockType)
  | if_ (t : BlockType)
  | else_
  | end_
  | br (label : Int)
  | brIf (label : Int)
  | brTable (labels : List Int) (default : Int)
  | ret
  | call (func : Int)
  | callIndirect (type table : Int)
  | drop
  | select (types : Option (List ValType))
  | localGet (i : Int)
  | localSet (i : Int)
  | localTee (i : Int)
  | globalGet (i : Int)
  | globalSet (i : Int)
  | load (op : LoadOp) (arg : MemArg)
  | store (op : StoreOp) (arg : MemArg)
  | memorySize
  | memoryGrow
  | const (t : ValType) (value : Int)
  | num (op : NumOp)
  deriving DecidableEq, Repr

namespace Instr

/-- The opcode of an instruction.  A `select` with an empty list of types is a plain one. -/
def opcode : Instr → Opcode
  | unreachable _ => .unreachable
  | nop => .nop
  | block _ => .block
  | loop _ => .loop
  | if_ _ => .if_
  | else_ => .else_
  | end_ => .end_
  | br _ => .br
  | brIf _ => .brIf
  | brTable _ _ => .brTable
  | ret => .ret
  | call _ => .call
  | callIndirect _ _ => .callIndirect
  | drop => .drop
  | select (some (_ :: _)) => .selectTyped
  | select _ => .select
  | localGet _ => .localGet
  | localSet _ => .localSet
  | localTee _ => .localTee
  | globalGet _ => .globalGet
  | globalSet _ => .globalSet
  | load op _ => .load op
  | store op _ => .store op
  | memorySize => .memorySize
  | memoryGrow => .memoryGrow
  | const t _ => .const t
  | num op => .num op

def name (i : Instr) : String := i.opcode.name

def opensBlock : Instr → Bool
  | block _ => true
  | loop _ => true
  | if_ _ => true
  | _ => false

end Instr

structure Placed where
  instr : Instr
  offset : Nat
  deriving DecidableEq, Repr

def Placed.new (i : Instr) : Placed := ⟨i, 0⟩

end ScoreWasm.Wasm
