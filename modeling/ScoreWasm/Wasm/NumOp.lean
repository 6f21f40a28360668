import ScoreWasm.Wasm.Types

/-!
# Numeric and memory operators

The operators that only touch the operand stack, and those that load and store.  Each family has
consecutive opcodes, so an operator's opcode is that of its family plus its place in it.
-/

namespace ScoreWasm.Wasm

inductive Width where
  | x32
  | x64
  deriving DecidableEq, Repr

namespace Width

def int : Width → ValType
  | x32 => .i32
  | x64 => .i64

def float : Width → ValType
  | x32 => .f32
  | x64 => .f64

def pick {α : Type} (w : Width) (narrow wide : α) : α :=
  match w with
  | x32 => narrow
  | x64 => wide

end Width

/-- A part of an integer: its type and the number of its low bits. -/
inductive Narrow where
  | i32of8
  | i32of16
  | i64of8
  | i64of16
  | i64of32
  deriving DecidableEq, Repr

namespace Narrow

def all : List Narrow := [i32of8, i32of16, i64of8, i64of16, i64of32]

def type : Narrow → ValType
  | i32of8 => .i32
  | i32of16 => .i32
  | _ => .i64

def bits : Narrow → Nat
  | i32of8 => 8
  | i32of16 => 16
  | i64of8 => 8
  | i64of16 => 16
  | i64of32 => 32

end Narrow

inductive IntRel where
  | eq | ne | ltS | ltU | gtS | gtU | leS | leU | geS | geU
  deriving DecidableEq, Repr

inductive FloatRel where
  | eq | ne | lt | gt | le | ge
  deriving DecidableEq, Repr

inductive IntUn where
  | clz | ctz | popcnt
  deriving DecidableEq, Repr

inductive IntBin where
  | add | sub | mul | divS | divU | remS | remU
  | and | or | xor | shl | shrS | shrU | rotl | rotr
  deriving DecidableEq, Repr

inductive FloatUn where
  | abs | neg | ceil | floor | trunc | nearest | sqrt
  deriving DecidableEq, Repr

inductive FloatBin where
  | add | sub | mul | div | min | max | copysign
  deriving DecidableEq, Repr

namespace IntRel

def all : List IntRel := [eq, ne, ltS, ltU, gtS, gtU, leS, leU, geS, geU]

def name : IntRel → String
  | eq => "eq" | ne => "ne" | ltS => "lt_s" | ltU => "lt_u" | gtS => "gt_s" | gtU => "gt_u"
  | leS => "le_s" | leU => "le_u" | geS => "ge_s" | geU => "ge_u"

end IntRel

namespace FloatRel

def all : List FloatRel := [eq, ne, lt, gt, le, ge]

def name : FloatRel → String
  | eq => "eq" | ne => "ne" | lt => "lt" | gt => "gt" | le => "le" | ge => "ge"

end FloatRel

namespace IntUn

def all : List IntUn := [clz, ctz, popcnt]

def name : IntUn → String
  | clz => "clz" | ctz => "ctz" | popcnt => "popcnt"

end IntUn

namespace IntBin

def all : List IntBin :=
  [add, sub, mul, divS, divU, remS, remU, and, or, xor, shl, shrS, shrU, rotl, rotr]

def name : IntBin → String
  | add => "add" | sub => "sub" | mul => "mul" | divS => "div_s" | divU => "div_u"
  | remS => "rem_s" | remU => "rem_u" | and => "and" | or => "or" | xor => "xor"
  | shl => "shl" | shrS => "shr_s" | shrU => "shr_u" | rotl => "rotl" | rotr => "rotr"

end IntBin

namespace FloatUn

def all : List FloatUn := [abs, neg, ceil, floor, trunc, nearest, sqrt]

def name : FloatUn → String
  | abs => "abs" | neg => "neg" | ceil => "ceil" | floor => "floor" | trunc => "trunc"
  | nearest => "nearest" | sqrt => "sqrt"

end FloatUn

namespace FloatBin

def all : List FloatBin := [add, sub, mul, div, min, max, copysign]

def name : FloatBin → String
  | add => "add" | sub => "sub" | mul => "mul" | div => "div" | min => "min" | max => "max"
  | copysign => "copysign"

end FloatBin

inductive NumOp where
  | eqz (w : Width)
  | intRel (w : Width) (op : IntRel)
  | floatRel (w : Width) (op : FloatRel)
  | intUn (w : Width) (op : IntUn)
  | intBin (w : Width) (op : IntBin)
  | floatUn (w : Width) (op : FloatUn)
  | floatBin (w : Width) (op : FloatBin)
  | wrap
  | truncate (dst src : Width) (signed : Bool)
  | extend (signed : Bool)
  | convert (dst src : Width) (signed : Bool)
  | demote
  | promote
  | reinterpretFloat (w : Width)
  | reinterpretInt (w : Width)
  | signExtend (n : Narrow)
  deriving DecidableEq, Repr

namespace NumOp

def conversions : List NumOp :=
  [wrap, truncate .x32 .x32 true, truncate .x32 .x32 false, truncate .x32 .x64 true,
   truncate .x32 .x64 false, extend true, extend false, truncate .x64 .x32 true,
   truncate .x64 .x32 false, truncate .x64 .x64 true, truncate .x64 .x64 false,
   convert .x32 .x32 true, convert .x32 .x32 false, convert .x32 .x64 true,
   convert .x32 .x64 false, demote, convert .x64 .x32 true, convert .x64 .x32 false,
   convert .x64 .x64 true, convert .x64 .x64 false, promote, reinterpretFloat .x32,
   reinterpretFloat .x64, reinterpretInt .x32, reinterpretInt .x64]

/-- All numeric operators, in the order of their opcodes, the first of which is 0x45. -/
def all : List NumOp :=
  [eqz .x32] ++ IntRel.all.map (intRel .x32) ++ [eqz .x64] ++ IntRel.all.map (intRel .x64)
    ++ FloatRel.all.map (floatRel .x32) ++ FloatRel.all.map (floatRel .x64)
    ++ IntUn.all.map (intUn .x32) ++ IntBin.all.map (intBin .x32)
    ++ IntUn.all.map (intUn .x64) ++ IntBin.all.map (intBin .x64)
    ++ FloatUn.all.map (floatUn .x32) ++ FloatBin.all.map (floatBin .x32)
    ++ FloatUn.all.map (floatUn .x64) ++ FloatBin.all.map (floatBin .x64)
    ++ conversions ++ Narrow.all.map signExtend

def signLetter (signed : Bool) : String := if signed then "s" else "u"

def name : NumOp → String
  | eqz w => w.int.name ++ ".eqz"
  | intRel w op => w.int.name ++ "." ++ op.name
  | floatRel w op => w.float.name ++ "." ++ op.name
  | intUn w op => w.int.name ++ "." ++ op.name
  | intBin w op => w.int.name ++ "." ++ op.name
  | floatUn w op => w.float.name ++ "." ++ op.name
  | floatBin w op => w.float.name ++ "." ++ op.name
  | wrap => "i32.wrap_i64"
  | truncate dst src signed =>
    dst.int.name ++ ".trunc_" ++ src.float.name ++ "_" ++ signLetter signed
  | extend signed => "i64.extend_i32_" ++ signLetter signed
  | convert dst src signed =>
    dst.float.name ++ ".convert_" ++ src.int.name ++ "_" ++ signLetter signed
  | demote => "f32.demote_f64"
  | promote => "f64.promote_f32"
  | reinterpretFloat w => w.int.name ++ ".reinterpret_" ++ w.float.name
  | reinterpretInt w => w.float.name ++ ".reinterpret_" ++ w.int.name
  | signExtend n => n.type.name ++ ".extend" ++ toString n.bits ++ "_s"

def type : NumOp → FuncType
  | eqz w => ⟨[w.int], [.i32]⟩
  | intRel w _ => ⟨[w.int, w.int], [.i32]⟩
  | floatRel w _ => ⟨[w.float, w.float], [.i32]⟩
  | intUn w _ => ⟨[w.int], [w.int]⟩
  | intBin w _ => ⟨[w.int, w.int], [w.int]⟩
  | floatUn w _ => ⟨[w.float], [w.float]⟩
  | floatBin w _ => ⟨[w.float, w.float], [w.float]⟩
  | wrap => ⟨[.i64], [.i32]⟩
  | truncate dst src _ => ⟨[src.float], [dst.int]⟩
  | extend _ => ⟨[.i32], [.i64]⟩
  | convert dst src _ => ⟨[src.int], [dst.float]⟩
  | demote => ⟨[.f64], [.f32]⟩
  | promote => ⟨[.f32], [.f64]⟩
  | reinterpretFloat w => ⟨[w.float], [w.int]⟩
  | reinterpretInt w => ⟨[w.int], [w.float]⟩
  | signExtend n => ⟨[n.type], [n.type]⟩

end NumOp

/-- An operator that loads: a whole value, or a part of an integer that is extended. -/
inductive LoadOp where
  | whole (t : ValType)
  | part (n : Narrow) (signed : Bool)
  deriving DecidableEq, Repr

namespace LoadOp

/-- All loads, in the order of their opcodes, the first of which is 0x28. -/
def all : List LoadOp :=
  ValType.all.map whole ++ Narrow.all.flatMap (fun n => [part n true, part n false])

def name : LoadOp → String
  | whole t => t.name ++ ".load"
  | part n signed => n.type.name ++ ".load" ++ toString n.bits ++ "_" ++ NumOp.signLetter signed

def type : LoadOp → ValType
  | whole t => t
  | part n _ => n.type

def size : LoadOp → Nat
  | whole t => t.size
  | part n _ => n.bits / 8

end LoadOp

/-- An operator that stores a whole value or the low part of an integer. -/
inductive StoreOp where
  | whole (t : ValType)
  | part (n : Narrow)
  deriving DecidableEq, Repr

namespace StoreOp

/-- All stores, in the order of their opcodes, the first of which is 0x36. -/
def all : List StoreOp := ValType.all.map whole ++ Narrow.all.map part

def name : StoreOp → String
  | whole t => t.name ++ ".store"
  | part n => n.type.name ++ ".store" ++ toString n.bits

def type : StoreOp → ValType
  | whole t => t
  | part n => n.type

def size : StoreOp → Nat
  | whole t => t.size
  | part n => n.bits / 8

end StoreOp

end ScoreWasm.Wasm
