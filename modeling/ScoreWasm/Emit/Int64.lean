import ScoreWasm.Emit.Int32

/-!
# Operators on 64-bit integers

A value takes two registers, the low word `a` and the high word `a.high`.
-/

namespace ScoreWasm.Emit

open Wasm

def signIntoHigh (a : Reg) : Script := testMask a.high [isNegative a]

def helper64 (ns : String) (a b : Reg) (path : String) (out : Reg) : Script :=
  .join [copy "%x" a, copy (.high "%x") a.high, copy "%y" b, copy (.high "%y") b.high,
    call ns path, copy a out, copy a.high out.high]

def shift64 (ns : String) (op : IntBin) (a b : Reg) : Script :=
  .join [copy "%x" a, copy (.high "%x") a.high, copy "%y" b, call ns ("rt/i64/" ++ op.name),
    copy a "%q", copy a.high (.high "%q")]

/-- The sum: a carry goes into the high word when the low word wraps around. -/
def add64 (a b : Reg) : Script :=
  .join [copy "%t0" a, operate a .add b, operate a.high .add b.high, copy "%t1" a,
    operate "%t1" .add (const minInt), operate "%t0" .add (const minInt),
    given [cmp "%t1" .lt "%t0"] (.command (.addScore a.high.score 1))]

/-- The difference: the high word gives one to the low word where that one is too small. -/
def sub64 (a b : Reg) : Script :=
  .join [biasedPair a b, operate a .sub b, operate a.high .sub b.high,
    given [cmp "%t0" .lt "%t1"] (.command (.addScore a.high.score (-1)))]

def divide64 (ns : String) (a b : Reg) (signed quotient : Bool) : Script :=
  .join [
    given [is b 0, is b.high 0] (trap ns .divideByZero),
    .onlyIf (signed && quotient)
      (given [is a 0, is a.high minInt, is b (-1), is b.high (-1)] (trap ns .integerOverflow)),
    helper64 ns a b (if signed then "rt/i64/divs" else "rt/i64/divu")
      (if quotient then "%q" else "%rem")]

def binary64 (ns : String) (op : IntBin) (a b : Reg) : Script :=
  let bitwise := helper32 ns a b ("rt/i32/" ++ op.name) "%q"
    ++ helper32 ns a.high b.high ("rt/i32/" ++ op.name) "%q"
  match op with
  | .add => add64 a b
  | .sub => sub64 a b
  | .mul => helper64 ns a b "rt/i64/mul" "%q"
  | .divS => divide64 ns a b true true
  | .divU => divide64 ns a b false true
  | .remS => divide64 ns a b true false
  | .remU => divide64 ns a b false false
  | .and => bitwise
  | .or => bitwise
  | .xor => bitwise
  | .shl => shift64 ns op a b
  | .shrS => shift64 ns op a b
  | .shrU => shift64 ns op a b
  | .rotl => shift64 ns op a b
  | .rotr => shift64 ns op a b

def strictOrder : Comparison → Comparison
  | .le => .lt
  | .ge => .gt
  | op => op

/-- Compares the orders of two values: the high words decide unless they are equal. -/
def order64 (sign : Comparison) (unsigned : Bool) (a b : Reg) : Script :=
  let bias : Script :=
    .join [copy "%t2" a.high, operate "%t2" .add (const minInt), copy "%t3" b.high,
      operate "%t3" .add (const minInt)]
  let highA : Reg := if unsigned then "%t2" else a.high
  let highB : Reg := if unsigned then "%t3" else b.high
  .join [biasedPair a b, .onlyIf unsigned bias, test a [cmp highA (strictOrder sign) highB],
    .command (.check [cmp highA .eq highB, storeIn a, cmp "%t0" sign "%t1"])]

def compare64 (op : IntRel) (a b : Reg) : Script :=
  let equal := test a [cmp a .eq b, cmp a.high .eq b.high]
  match relOrder? op with
  | none => if op == .eq then equal else equal ++ test a [is a 0]
  | some (sign, unsigned) => order64 sign unsigned a b

def unary64 (ns : String) (op : IntUn) (a : Reg) : Script :=
  .join [copy "%x" a, copy (.high "%x") a.high, call ns ("rt/i64/" ++ op.name), copy a "%q",
    set a.high 0]

end ScoreWasm.Emit
