import ScoreWasm.Wasm.Error
import ScoreWasm.Wasm.Module

/-!
# The operand stack while code is written

Type checking fixes the height of the operand stack at every instruction, so an operand's slot is
known when code is written.  A slot that a constant has just been put into remembers it, so that some
operators can be written in a simpler way.
-/

namespace ScoreWasm.Emit

open Wasm

structure StackValue where
  slot : Nat
  type : Option ValType
  const : Option Int
  deriving DecidableEq, Repr

/-- The operands, the topmost first. -/
structure Stack where
  values : List StackValue
  deriving DecidableEq, Repr

namespace Stack

def height (s : Stack) : Nat := s.values.length

def unknown (slot : Nat) : StackValue := ⟨slot, none, none⟩

def pad (h : Nat) (s : Stack) : Stack :=
  ⟨((List.range' s.height (h - s.height)).map unknown).reverse ++ s.values⟩

def ofHeight (h : Int) : Stack := pad h.toNat ⟨[]⟩

/-- Puts an operand on top; its slot is the height before. -/
def push (type : Option ValType) (const : Option Int) (s : Stack) : Nat × Stack :=
  (s.height, ⟨⟨s.height, type, const⟩ :: s.values⟩)

def pop (s : Stack) : Except CompileError (StackValue × Stack) :=
  match s.values with
  | v :: rest => .ok (v, ⟨rest⟩)
  | [] => .error (.emit .stackUnderflow)

/-- Looks at an operand; a negative depth counts from the bottom. -/
def peek (depth : Int) (s : Stack) : Except CompileError StackValue :=
  match elementAt? s.values depth with
  | some v => .ok v
  | none => .error (if depth < 0 then .outOfRange else .emit .stackUnderflow)

/-- Brings the stack to a height; a negative height counts from the top. -/
def truncate (h : Int) (s : Stack) : Stack :=
  pad h.toNat ⟨s.values.drop (s.height - bound s.height h)⟩

end Stack

end ScoreWasm.Emit
