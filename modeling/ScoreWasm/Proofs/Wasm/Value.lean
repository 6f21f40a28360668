import ScoreWasm.Host.Effect
import ScoreWasm.Wasm.Module

/-!
# Values and the store

What a running WebAssembly program works on: values of the numeric types as bit vectors, linear memory
as bytes by address, and the globals.  A value of a type that is only known by its name takes one word.

Host functions may have a state of their own; its type is a parameter.
-/

namespace ScoreWasm.Wasm

/-- A value and its type. -/
inductive Value where
  | i32 (x : BitVec 32)
  | i64 (x : BitVec 64)
  | f32 (x : BitVec 32)
  | f64 (x : BitVec 64)
  | other (name : String) (x : BitVec 32)
  deriving DecidableEq, Repr

namespace Value

/-- The type of a value. -/
def type : Value → ValType
  | i32 _ => .i32
  | i64 _ => .i64
  | f32 _ => .f32
  | f64 _ => .f64
  | other name _ => .other name

/-- The value of a type with these bits. -/
def ofInt : ValType → Int → Value
  | .i32, v => i32 (BitVec.ofInt 32 v)
  | .i64, v => i64 (BitVec.ofInt 64 v)
  | .f32, v => f32 (BitVec.ofInt 32 v)
  | .f64, v => f64 (BitVec.ofInt 64 v)
  | .other name, v => other name (BitVec.ofInt 32 v)

/-- The bits of a value. -/
def bits : Value → Nat
  | i32 x => x.toNat
  | i64 x => x.toNat
  | f32 x => x.toNat
  | f64 x => x.toNat
  | other _ x => x.toNat

/-- What a local starts with. -/
def zero (t : ValType) : Value := ofInt t 0

@[simp] theorem type_ofInt (t : ValType) (v : Int) : (ofInt t v).type = t := by
  cases t <;> rfl

@[simp] theorem type_zero (t : ValType) : (zero t).type = t := type_ofInt t 0

end Value

/-! ### Memory -/

/-- The size of a page. -/
def bytesPerPage : Nat := 65536

/-- Linear memory: a number of pages, and the byte at every address.  Bytes past the last page are not
looked at. -/
structure Memory where
  pages : Nat
  byte : Nat → UInt8

namespace Memory

/-- The size of the memory. -/
def size (m : Memory) : Nat := m.pages * bytesPerPage

/-- The number whose bytes, the lowest first, stand at an address. -/
def read (m : Memory) : Nat → Nat → Nat
  | _, 0 => 0
  | a, n + 1 => (m.byte a).toNat + 256 * m.read (a + 1) n

/-- Writes the low bytes of a number at an address, the lowest first. -/
def write (m : Memory) (a n v : Nat) : Memory :=
  { m with byte := fun x => if a ≤ x ∧ x < a + n then UInt8.ofNat (v / 256 ^ (x - a)) else m.byte x }

/-- The memory with more pages, of zeros. -/
def grow (m : Memory) (n : Nat) : Memory :=
  { pages := m.pages + n, byte := fun x => if x < m.size then m.byte x else 0 }

end Memory

/-- The value that a load makes of the number it has read. -/
def LoadOp.result (op : LoadOp) (raw : Nat) : Value :=
  match op with
  | .whole t => .ofInt t raw
  | .part n true => .ofInt n.type ((raw : Int).bmod (2 ^ n.bits))
  | .part n false => .ofInt n.type raw

@[simp] theorem LoadOp.type_result (op : LoadOp) (raw : Nat) : (op.result raw).type = op.type := by
  cases op with
  | whole t => simp [LoadOp.result, LoadOp.type]
  | part n signed => cases signed <;> simp [LoadOp.result, LoadOp.type]

/-! ### The store -/

/-- What outlives the activations of functions: globals, memory, and the state of the hosts. -/
structure Store (σ : Type) where
  globals : List Value
  memory : Memory
  host : σ

/-- Why a run ends early: it traps or exits, or it meets code that was not checked. -/
inductive Halt where
  | stop (why : Host.Stop)
  | stuck
  deriving DecidableEq, Repr

/-- The end by a trap. -/
def Halt.trap (kind : Trap) : Halt := .stop (.trap kind)

/-- What the meaning of a module's code depends on: how numeric operators compute, what imported
functions do, how many pages memory may have, and which functions the tables hold.  Operators and hosts
give values of the types that are declared for them. -/
structure Env (σ : Type) where
  module : Module
  num : NumOp → List Value → Except Halt Value
  host : Int → List Value → Store σ → Except Halt (List Value × Store σ)
  pageLimit : Nat
  tables : List (List (Option Nat))
  num_type : ∀ op args v, num op args = .ok v → [v.type] = op.type.results
  num_stop : ∀ op args e, args.map Value.type = op.type.params → num op args = .error e → e ≠ .stuck
  host_type : ∀ f args s vs s', host f args s = .ok (vs, s') → vs.map Value.type = (module.funcType f).results ∧
      s'.globals.map Value.type = s.globals.map Value.type
  host_stop : ∀ f args s e, host f args s = .error e → e ≠ .stuck
  table_lt : ∀ entries ∈ tables, ∀ f, some f ∈ entries → f < module.funcCount

variable {σ : Type}

/-! ### Instructions without control flow -/

/-- How many operands an instruction takes that passes control to the next one. -/
def Instr.inputs (m : Module) : Instr → Nat
  | .drop => 1
  | .select _ => 3
  | .localSet _ => 1
  | .localTee _ => 1
  | .globalSet _ => 1
  | .load _ _ => 1
  | .store _ _ => 2
  | .memoryGrow => 1
  | .num op => op.type.params.length
  | .call f => (m.funcType f).params.length
  | _ => 0

/-- The list with the element at an index replaced. -/
def replaceAt {α : Type} (l : List α) (i : Int) (a : α) : List α :=
  match position? l.length i with
  | some n => l.set n a
  | none => l

/-- The start of an access of some bytes, if it lies within memory. -/
def Memory.place? (m : Memory) (address : Value) (offset : Int) (bytes : Nat) : Option Nat :=
  let start : Int := address.bits + offset
  if 0 ≤ start ∧ start + bytes ≤ m.size then some start.toNat else none

/-- The pages that memory has after growing, if it may grow. -/
def Env.grown? (env : Env σ) (m : Memory) (count : Nat) : Option Memory :=
  if m.pages + count ≤ env.pageLimit then some (m.grow count) else none

/-- What an instruction without control flow does to its operands, the locals and the store: the results
and the new locals and store.  Operands and results are in order, the last one on top. -/
def Env.plain (env : Env σ) (i : Instr) (args locals : List Value) (s : Store σ) :
    Except Halt (List Value × List Value × Store σ) :=
  match i, args with
  | .drop, [_] => .ok ([], locals, s)
  | .select _, [a, b, c] => .ok ([if c.bits = 0 then b else a], locals, s)
  | .localGet k, [] =>
    match elementAt? locals k with
    | some v => .ok ([v], locals, s)
    | none => .error .stuck
  | .localSet k, [v] => .ok ([], replaceAt locals k v, s)
  | .localTee k, [v] => .ok ([v], replaceAt locals k v, s)
  | .globalGet k, [] =>
    match elementAt? s.globals k with
    | some v => .ok ([v], locals, s)
    | none => .error .stuck
  | .globalSet k, [v] => .ok ([], locals, { s with globals := replaceAt s.globals k v })
  | .load op arg, [a] =>
    match s.memory.place? a arg.offset op.size with
    | some start => .ok ([op.result (s.memory.read start op.size)], locals, s)
    | none => .error (.trap .outOfBounds)
  | .store op arg, [a, v] =>
    match s.memory.place? a arg.offset op.size with
    | some start => .ok ([], locals, { s with memory := s.memory.write start op.size v.bits })
    | none => .error (.trap .outOfBounds)
  | .memorySize, [] => .ok ([.ofInt .i32 s.memory.pages], locals, s)
  | .memoryGrow, [n] =>
    match env.grown? s.memory n.bits with
    | some grown => .ok ([.ofInt .i32 s.memory.pages], locals, { s with memory := grown })
    | none => .ok ([.ofInt .i32 (-1)], locals, s)
  | .const t v, [] => .ok ([.ofInt t v], locals, s)
  | .num op, args => do
    let v ← env.num op args
    return ([v], locals, s)
  | .call f, args => do
    let (vs, s) ← env.host f args s
    return (vs, locals, s)
  | _, _ => .error .stuck

end ScoreWasm.Wasm
