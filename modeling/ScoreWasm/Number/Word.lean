import ScoreWasm.Number.Read

/-!
# Words and bit patterns

A scoreboard keeps signed 32-bit integers, so a 64-bit value takes two of them: a low and a high
word.  Values of floating-point types are carried as bit patterns.
-/

namespace ScoreWasm.Word

open Ieee

/-- The signed 32-bit integer congruent to a number modulo 2³². -/
def wrap32 (i : Int) : Int := i.bmod (2 ^ 32)

def split64 (i : Int) : Int × Int :=
  let v := i.emod (2 ^ 64)
  (wrap32 v, wrap32 (v / 2 ^ 32))

def joinWords (lo hi : Int) : Int :=
  hi.emod (2 ^ 32) * 2 ^ 32 + lo.emod (2 ^ 32)

/-- A value given to a program: an integer, a floating-point number, the digits of an integer, or
something that is no number at all. -/
inductive Argument where
  | int (i : Int)
  | float (x : Binary64)
  | digits (s : String)
  | none
  deriving DecidableEq, Repr

inductive NoPattern where
  | tooLarge
  | integerExpected
  | badNumber (f : Number.Fault)
  | notNumber
  deriving DecidableEq, Repr

def isWideName (type : String) : Bool := type == "i64" || type == "f64"

def patternOf (type : String) (i : Int) : Nat :=
  (i.emod (if isWideName type then 2 ^ 64 else 2 ^ 32)).toNat

/-- The bit pattern of an argument of a type.  An integer is taken modulo the width, also for a
floating-point type. -/
def toBits (type : String) : Argument → Except NoPattern Nat
  | .int i => .ok (patternOf type i)
  | .digits s =>
    match Number.readInt s with
    | .ok i => .ok (patternOf type i)
    | .error f => .error (.badNumber f)
  | .none => .error .notNumber
  | .float x =>
    if type == "f32" then
      match binary64.convert? binary32 x.bits.toNat with
      | some bits => .ok bits
      | Option.none => .error .tooLarge
    else if type == "f64" then .ok x.bits.toNat
    else .error .integerExpected

/-- The value of a bit pattern: a signed integer for the integer types, the pattern itself for the
others. -/
def fromBits (type : String) (bits : Int) : Int :=
  if type == "i32" then bits.bmod (2 ^ 32)
  else if type == "i64" then bits.bmod (2 ^ 64)
  else bits

def bitsToFloat (type : String) (bits : Int) : Binary64 :=
  if type == "f32" then
    let pattern := (bits.emod (2 ^ 32)).toNat
    Binary64.ofPattern ((binary32.convert? binary64 pattern).getD 0)
  else Binary64.ofPattern (bits.emod (2 ^ 64)).toNat

/-- Whether two values of a type agree: all NaNs of a floating-point type do. -/
def agree (type : String) (a b : Int) : Bool :=
  if type == "f32" || type == "f64" then
    match (bitsToFloat type a).isNaN, (bitsToFloat type b).isNaN with
    | false, false => a == b
    | x, y => x && y
  else a == b

end ScoreWasm.Word
