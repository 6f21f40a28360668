import ScoreWasm.Number.Ieee

/-!
# Double-precision numbers

The numbers that commands and stored data carry: a 64-bit pattern with exact conversions and a
correctly rounded product.
-/

namespace ScoreWasm

open Ieee

/-- A double-precision number, by its bit pattern. -/
structure Binary64 where
  bits : UInt64
  deriving DecidableEq, Repr, Inhabited

namespace Binary64

def ofPattern (n : Nat) : Binary64 := ⟨UInt64.ofNat n⟩

def value (x : Binary64) : Value := binary64.decode x.bits.toNat

def one : Binary64 := ofPattern 0x3ff0000000000000

def ofRatio (neg : Bool) (num den : Nat) : Binary64 := ofPattern (binary64.round neg num den)

def infinity (neg : Bool) : Binary64 := ofPattern (binary64.signed neg binary64.infinity)

def nan (neg : Bool) : Binary64 := ofPattern (binary64.signed neg binary64.canonicalNaN)

def isZero (x : Binary64) : Bool := x.bits &&& 0x7fffffffffffffff == 0

def isNaN (x : Binary64) : Bool := binary64.isNaN x.bits.toNat

/-- The number nearest to an integer, or `none` when that is beyond the largest finite number. -/
def ofInt? (i : Int) : Option Binary64 :=
  let pattern := binary64.round (i < 0) i.natAbs 1
  if pattern % binary64.signBit == binary64.infinity then none else some (ofPattern pattern)

def mul (x y : Binary64) : Binary64 :=
  match x.value, y.value with
  | .nan _ _, _ => x
  | _, .nan _ _ => y
  | .inf a, .inf b => infinity (a != b)
  | .inf a, .finite b m _ => if m == 0 then nan true else infinity (a != b)
  | .finite a m _, .inf b => if m == 0 then nan true else infinity (a != b)
  | .finite a m e, .finite b n d => ofPattern (binary64.roundDyadic (a != b) (m * n) (e + d))

/-- The largest integer not above `± m · 2 ^ e`. -/
def floorDyadic (neg : Bool) (m : Nat) (e : Int) : Int :=
  match e with
  | .ofNat k => if neg then -((m * 2 ^ k : Nat) : Int) else (m * 2 ^ k : Nat)
  | .negSucc k =>
    let d := 2 ^ (k + 1)
    if neg then -(((m + d - 1) / d : Nat) : Int) else (m / d : Nat)

/-- `± m · 2 ^ e` without its fraction. -/
def truncDyadic (neg : Bool) (m : Nat) (e : Int) : Int :=
  let size := match e with
    | .ofNat k => m * 2 ^ k
    | .negSucc k => m / 2 ^ (k + 1)
  if neg then -(size : Int) else size

end Binary64

inductive NoInteger where
  | infinite
  | notANumber
  deriving DecidableEq, Repr

namespace Binary64

def floor (x : Binary64) : Except NoInteger Int :=
  match x.value with
  | .nan _ _ => .error .notANumber
  | .inf _ => .error .infinite
  | .finite neg m e => .ok (floorDyadic neg m e)

def trunc (x : Binary64) : Except NoInteger Int :=
  match x.value with
  | .nan _ _ => .error .notANumber
  | .inf _ => .error .infinite
  | .finite neg m e => .ok (truncDyadic neg m e)

/-- Whether the number equals an integer: it lies neither above nor below it. -/
def isInt (x : Binary64) (i : Int) : Bool :=
  match x.value with
  | .finite neg m e => floorDyadic neg m e == i && floorDyadic (!neg) m e == -i
  | _ => false

/-- Whether two numbers are equal: the zeros are, and a NaN equals nothing. -/
def equals (x y : Binary64) : Bool := !x.isNaN && (x == y || x.isZero && y.isZero)

end Binary64

end ScoreWasm
