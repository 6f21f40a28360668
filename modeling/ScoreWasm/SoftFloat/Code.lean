import ScoreWasm.Number.Ieee
import ScoreWasm.SoftFloat.Routine
import ScoreWasm.Wasm.Instr

/-!
# Code of the routines

Code is put together from expressions on 64-bit integers.  An expression leaves its value on the
stack; tests leave a truth value.  Calls name routines, not function indices, so the code does not
depend on the module that it becomes part of.
-/

namespace ScoreWasm.SoftFloat

open Wasm

/-- An instruction, or a call of a routine. -/
inductive Op where
  | plain (i : Instr)
  | call (r : Routine)
  deriving DecidableEq, Repr

structure Code where
  ops : List Op
  deriving DecidableEq, Repr

namespace Code

def empty : Code := ⟨[]⟩

instance : Append Code := ⟨fun a b => ⟨a.ops ++ b.ops⟩⟩

def instr (i : Instr) : Code := ⟨[.plain i]⟩

def andThen (a : Code) (i : Instr) : Code := a ++ instr i

def unary (op : NumOp) (a : Code) : Code := a.andThen (.num op)

def binary (op : NumOp) (a b : Code) : Code := a ++ b.andThen (.num op)

/-! ### Integers of 64 bits -/

def lit (n : Int) : Code := instr (.const .i64 (n.bmod (2 ^ 64)))

instance (n : Nat) : OfNat Code n := ⟨lit n⟩

instance : Add Code := ⟨binary (.intBin .x64 .add)⟩

instance : Sub Code := ⟨binary (.intBin .x64 .sub)⟩

instance : Mul Code := ⟨binary (.intBin .x64 .mul)⟩

instance : AndOp Code := ⟨binary (.intBin .x64 .and)⟩

instance : OrOp Code := ⟨binary (.intBin .x64 .or)⟩

instance : XorOp Code := ⟨binary (.intBin .x64 .xor)⟩

instance : ShiftLeft Code := ⟨binary (.intBin .x64 .shl)⟩

instance : ShiftRight Code := ⟨binary (.intBin .x64 .shrU)⟩

def shiftSigned : Code → Code → Code := binary (.intBin .x64 .shrS)

def quotient : Code → Code → Code := binary (.intBin .x64 .divU)

def leadingZeros : Code → Code := unary (.intUn .x64 .clz)

/-! ### Tests -/

def rel (op : IntRel) : Code → Code → Code := binary (.intRel .x64 op)

def isZero : Code → Code := unary (.eqz .x64)

def nonzero (a : Code) : Code := rel .ne a 0

def both : Code → Code → Code := binary (.intBin .x32 .and)

def either : Code → Code → Code := binary (.intBin .x32 .or)

def fails : Code → Code := unary (.eqz .x32)

def flag : Code → Code := unary (.extend false)

/-- The low half of a number; of a flag, the test. -/
def low : Code → Code := unary .wrap

/-! ### Variables and control -/

def var (x : Nat) : Code := instr (.localGet x)

def assign (x : Nat) (a : Code) : Code := a.andThen (.localSet x)

def keep (x : Nat) (a : Code) : Code := a.andThen (.localTee x)

def ret (a : Code) : Code := a.andThen .ret

def when_ (test body : Code) : Code := test.andThen (.if_ .empty) ++ body.andThen .end_

def branch (test yes no : Code) : Code :=
  test.andThen (.if_ .empty) ++ yes.andThen .else_ ++ no.andThen .end_

def choose (test yes no : Code) : Code :=
  test.andThen (.if_ (.value .i64)) ++ yes.andThen .else_ ++ no.andThen .end_

/-- Does something, and again as long as the test after it holds. -/
def repeatWhile (body test : Code) : Code :=
  instr (.block .empty) ++ instr (.loop .empty) ++ body ++ test.andThen (.brIf 0)
    ++ instr .end_ ++ instr .end_

def trap (kind : Trap) : Code := instr (.unreachable (some kind))

def call (r : Routine) (args : List Code) : Code := args.foldl (· ++ ·) empty ++ ⟨[.call r]⟩

def callees (c : Code) : List Routine :=
  (c.ops.filterMap (fun o => match o with
    | .call r => some r
    | .plain _ => none)).eraseDups

/-- The instructions of a function with given indices for the routines. -/
def instrs (index : Routine → Nat) (c : Code) : List Instr :=
  c.ops.map (fun o => match o with
    | .plain i => i
    | .call r => .call (index r)) ++ [.end_]

end Code

/-! ### Patterns -/

def format : Width → Ieee.Format
  | .x32 => Ieee.binary32
  | .x64 => Ieee.binary64

def signPlace (w : Width) : Nat := (format w).frac + (format w).exp

def fracMask (w : Width) : Nat := 2 ^ (format w).frac - 1

def onePattern (w : Width) : Nat := (format w).bias * 2 ^ (format w).frac

def nat (n : Nat) : Code := Code.lit n

namespace Code

def toBits (w : Width) (a : Code) : Code :=
  match w with
  | .x64 => unary (.reinterpretFloat .x64) a
  | .x32 => flag (unary (.reinterpretFloat .x32) a)

def fromBits (w : Width) (a : Code) : Code :=
  match w with
  | .x64 => unary (.reinterpretInt .x64) a
  | .x32 => unary (.reinterpretInt .x32) (low a)

def returnNaN (w : Width) : Code := ret (fromBits w (nat (format w).canonicalNaN))

def signed (w : Width) (sign : Nat) (pattern : Nat) : Code :=
  (var sign <<< nat (signPlace w)) ||| nat pattern

def expField (w : Width) (bits : Nat) : Code :=
  (var bits >>> nat (format w).frac) &&& nat (format w).topExp

def fracField (w : Width) (bits : Nat) : Code := var bits &&& nat (fracMask w)

def signField (w : Width) (bits : Nat) : Code := var bits >>> nat (signPlace w)

/-- Whether an exponent field is that of infinities and NaNs. -/
def isSpecial (w : Width) (exp : Nat) : Code := rel .eq (var exp) (nat (format w).topExp)

def isZeroPattern (w : Width) (bits : Nat) : Code :=
  isZero (var bits &&& nat (2 ^ signPlace w - 1))

end Code

structure Operand where
  value : Nat
  bits : Nat
  exp : Nat
  sig : Nat
  sign : Nat

namespace Operand

open Code

def load (w : Width) (o : Operand) : Code := assign o.bits (toBits w (var o.value))

def unpack (w : Width) (o : Operand) : Code :=
  assign o.sign (signField w o.bits) ++ assign o.exp (expField w o.bits)
    ++ assign o.sig (fracField w o.bits)

/-- Adds the hidden bit, or gives a subnormal number the least exponent. -/
def unhide (w : Width) (o : Operand) : Code :=
  branch (isZero (var o.exp)) (assign o.exp 1)
    (assign o.sig (var o.sig ||| nat (2 ^ (format w).frac)))

/-- Shifts the significand of a double until its hidden bit leads. -/
def normalize (o : Operand) (shift : Nat) : Code :=
  assign shift (leadingZeros (var o.sig) - 11) ++ assign o.sig (var o.sig <<< var shift)
    ++ assign o.exp (var o.exp - var shift)

def special (w : Width) (o : Operand) : Code := isSpecial w o.exp

def isNaN (w : Width) (o : Operand) : Code := both (o.special w) (nonzero (var o.sig))

def isZero (w : Width) (o : Operand) : Code := isZeroPattern w o.bits

end Operand

end ScoreWasm.SoftFloat
