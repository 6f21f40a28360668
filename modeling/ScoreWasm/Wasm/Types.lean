/-!
# WebAssembly types

Value types, function types, limits, and the types of tables and globals.
-/

namespace ScoreWasm.Wasm

/-- The types of values: the four numeric ones, and any other name, which stands for a type that only
equals itself. -/
inductive ValType where
  | i32
  | i64
  | f32
  | f64
  | other (name : String)
  deriving DecidableEq, Repr, Inhabited

namespace ValType

def all : List ValType := [i32, i64, f32, f64]

def name : ValType → String
  | i32 => "i32"
  | i64 => "i64"
  | f32 => "f32"
  | f64 => "f64"
  | other name => name

def named? (s : String) : Option ValType := all.find? (fun t => t.name == s)

def ofName (s : String) : ValType := (named? s).getD (other s)

def isNumeric (t : ValType) : Bool := all.contains t

/-- The byte that stands for a type in a binary module; only numeric types have one. -/
def code? : ValType → Option UInt8
  | i32 => some 0x7f
  | i64 => some 0x7e
  | f32 => some 0x7d
  | f64 => some 0x7c
  | other _ => none

def ofCode? (b : UInt8) : Option ValType := all.find? (fun t => t.code? == some b)

def isWide : ValType → Bool
  | i64 => true
  | f64 => true
  | _ => false

def size (t : ValType) : Nat := if t.isWide then 8 else 4

end ValType

structure FuncType where
  params : List ValType
  results : List ValType
  deriving DecidableEq, Repr, Inhabited

def FuncType.text (t : FuncType) : String :=
  let names (ts : List ValType) := ", ".intercalate (ts.map ValType.name)
  "(" ++ names t.params ++ ") -> (" ++ names t.results ++ ")"

/-- The size of a table or memory: a minimum and possibly a maximum. -/
structure Limits where
  min : Int
  max : Option Int
  deriving DecidableEq, Repr

structure GlobalType where
  type : ValType
  isMutable : Bool
  deriving DecidableEq, Repr

end ScoreWasm.Wasm
