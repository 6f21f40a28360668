import ScoreWasm.Wasm.NumOp

/-!
# The routines of software floating point

Arithmetic on floating-point numbers is done by functions on 64-bit integers.  Two of them shift and
multiply while keeping track of lost bits, two round a result and pack it into a pattern, and the
rest each do one operator.
-/

namespace ScoreWasm.SoftFloat

open Wasm

inductive Rounding where
  | ceil
  | floor
  | trunc
  | nearest
  deriving DecidableEq, Repr

namespace Rounding

def all : List Rounding := [ceil, floor, trunc, nearest]

def name : Rounding → String
  | ceil => "ceil"
  | floor => "floor"
  | trunc => "trunc"
  | nearest => "nearest"

end Rounding

inductive Routine where
  | shiftRightJam
  | mulHighJam
  | pack (w : Width)
  | add (w : Width)
  | mul (w : Width)
  | div (w : Width)
  | sqrt (w : Width)
  | round (w : Width) (mode : Rounding)
  | promote
  | demote
  | fromInt (w : Width)
  | convert (w : Width) (signed : Bool)
  | truncate (dst : Width) (signed : Bool)
  deriving DecidableEq, Repr

namespace Routine

/-- All routines.  Each stands after those that it calls. -/
def all : List Routine :=
  [shiftRightJam, mulHighJam, pack .x64, pack .x32, add .x64, mul .x64, div .x64, sqrt .x64]
    ++ Rounding.all.map (round .x32) ++ Rounding.all.map (round .x64)
    ++ [promote, demote, fromInt .x64, convert .x64 true, convert .x64 false,
      fromInt .x32, convert .x32 true, convert .x32 false,
      truncate .x32 true, truncate .x32 false, truncate .x64 true, truncate .x64 false,
      add .x32, mul .x32, div .x32, sqrt .x32]

def name : Routine → String
  | shiftRightJam => "shift_right_jam"
  | mulHighJam => "mul_hi_jam"
  | pack w => w.float.name ++ "_pack"
  | add w => w.float.name ++ "_add"
  | mul w => w.float.name ++ "_mul"
  | div w => w.float.name ++ "_div"
  | sqrt w => w.float.name ++ "_sqrt"
  | round w mode => w.float.name ++ "_" ++ mode.name
  | promote => "f32_promote"
  | demote => "f64_demote"
  | fromInt w => w.float.name ++ "_from_int"
  | convert w signed => w.float.name ++ "_convert_i64_" ++ NumOp.signLetter signed
  | truncate dst signed => dst.int.name ++ "_trunc_f64_" ++ NumOp.signLetter signed

def type : Routine → FuncType
  | shiftRightJam => ⟨[.i64, .i64], [.i64]⟩
  | mulHighJam => ⟨[.i64, .i64], [.i64]⟩
  | pack _ => ⟨[.i64, .i64, .i64], [.i64]⟩
  | add w => ⟨[w.float, w.float], [w.float]⟩
  | mul w => ⟨[w.float, w.float], [w.float]⟩
  | div w => ⟨[w.float, w.float], [w.float]⟩
  | sqrt w => ⟨[w.float], [w.float]⟩
  | round w _ => ⟨[w.float], [w.float]⟩
  | promote => ⟨[.f32], [.f64]⟩
  | demote => ⟨[.f64], [.f32]⟩
  | fromInt _ => ⟨[.i64, .i64], [.i64]⟩
  | convert w _ => ⟨[.i64], [w.float]⟩
  | truncate dst _ => ⟨[.f64], [dst.int]⟩

end Routine

end ScoreWasm.SoftFloat
