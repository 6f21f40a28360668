import ScoreWasm.Text.Blank

/-!
# Traps

The ways in which a running program can fail, with the number that a compiled program reports and
the words it shows.
-/

namespace ScoreWasm.Wasm

inductive Trap where
  | unreachable
  | divideByZero
  | integerOverflow
  | outOfBounds
  | typeMismatch
  | undefinedElement
  | uninitializedElement
  | stackExhausted
  | invalidConversion
  deriving DecidableEq, Repr

namespace Trap

def all : List Trap :=
  [unreachable, divideByZero, integerOverflow, outOfBounds, typeMismatch, undefinedElement,
   uninitializedElement, stackExhausted, invalidConversion]

def name : Trap → String
  | unreachable => "unreachable"
  | divideByZero => "divide_by_zero"
  | integerOverflow => "integer_overflow"
  | outOfBounds => "out_of_bounds_memory_access"
  | typeMismatch => "indirect_call_type_mismatch"
  | undefinedElement => "undefined_element"
  | uninitializedElement => "uninitialized_element"
  | stackExhausted => "call_stack_exhausted"
  | invalidConversion => "invalid_conversion_to_integer"

def code : Trap → Nat
  | unreachable => 1
  | divideByZero => 2
  | integerOverflow => 3
  | outOfBounds => 4
  | typeMismatch => 5
  | undefinedElement => 6
  | uninitializedElement => 7
  | stackExhausted => 8
  | invalidConversion => 9

def words : Trap → String
  | unreachable => "unreachable executed"
  | divideByZero => "integer divide by zero"
  | integerOverflow => "integer overflow"
  | outOfBounds => "out of bounds memory access"
  | typeMismatch => "indirect call type mismatch"
  | undefinedElement => "undefined element"
  | uninitializedElement => "uninitialized element"
  | stackExhausted => "call stack exhausted"
  | invalidConversion => "invalid conversion to integer"

/-! ### The traps of other engines -/

/-- The kind of trap that an engine reports under a code of its own. -/
def ofEngineCode? : String → Option Trap
  | "UNREACHABLE" => some unreachable
  | "INT_DIVISION_BY_ZERO" => some divideByZero
  | "INT_OVERFLOW" => some integerOverflow
  | "BAD_CONVERSION_TO_INT" => some invalidConversion
  | "MEMORY_OUT_OF_BOUNDS" => some outOfBounds
  | "HEAP_MISALIGNED" => some outOfBounds
  | "BAD_SIGNATURE" => some typeMismatch
  | "TABLE_OUT_OF_BOUNDS" => some undefinedElement
  | "INDIRECT_CALL_TO_NULL" => some uninitializedElement
  | "STACK_OVERFLOW" => some stackExhausted
  | _ => none

def ofMessage? (message : String) : Option Trap :=
  if (Text.cutAt? "unreachable" message).isSome then some unreachable
  else all.find? (fun t => (Text.cutAt? t.words message).isSome)

/-- The kind of trap that an engine reports with a message and perhaps a code. -/
def ofReport? (message : String) (code : Option String) : Option Trap :=
  (code.bind ofEngineCode?).or (ofMessage? message)

end Trap

end ScoreWasm.Wasm
