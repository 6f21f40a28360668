import ScoreWasm.Emit.Script
import ScoreWasm.Wasm.NumOp

/-!
# Operators on 32-bit integers

The operands are in registers `a` and `b`, and the result replaces `a`.  The scoreboard adds,
subtracts and multiplies as WebAssembly does; it divides rounding down, and knows neither unsigned
numbers nor bits.  What takes more than a few commands is done by a library function with its operands
in `%x` and `%y`.  `c` is the value of `b` where it is a known constant.
-/

namespace ScoreWasm.Emit

open Wasm

def helper32 (ns : String) (a b : Reg) (path : String) (out : Reg) : Script :=
  .join [copy "%x" a, copy "%y" b, call ns path, copy a out]

def clearSign (a : Reg) : Script := given [isNegative a] (operate a .sub (const minInt))

def signExtend (a : Reg) (bits : Nat) : Script :=
  operate a .mod (const (2 ^ bits))
    ++ given [atLeast a (2 ^ (bits - 1))] (.command (.addScore a.score (-(2 ^ bits))))

/-- Sets a register to minus one if a test holds and to zero otherwise. -/
def testMask (r : Reg) (clauses : List Clause) : Script :=
  test r clauses ++ operate r .mul (const (-1))

/-- Both operands moved so that comparing them as signed numbers orders them as unsigned ones. -/
def biasedPair (a b : Reg) : Script :=
  .join [copy "%t0" a, operate "%t0" .add (const minInt), copy "%t1" b,
    operate "%t1" .add (const minInt)]

def shiftConst (op : IntBin) (a : Reg) (k : Nat) : Script :=
  if k == 0 then .empty
  else match op with
    | .shl => operate a .mul (const (2 ^ k))
    | .shrS => if k == 31 then testMask a [isNegative a] else operate a .div (const (2 ^ k))
    | _ =>
      if k == 31 then test a [isNegative a]
      else if k == 1 then operate a .div (const 2) ++ clearSign a
      else operate a .div (const (2 ^ k))
        ++ given [isNegative a] (.command (.addScore a.score (2 ^ (32 - k))))

/-- The signed quotient: the scoreboard rounds down, so one is added where the division is not exact
and the signs differ. -/
def divS (ns : String) (a b : Reg) (c : Option Int) : Script :=
  let increment : Script := .command (.addScore a.score 1)
  .join [
    .onlyIf c.isNone (given [is b 0] (trap ns .divideByZero)),
    .onlyIf (c.all (· == -1)) (given [is a minInt, is b (-1)] (trap ns .integerOverflow)),
    copy "%t0" a, operate "%t0" .mod b, copy "%t1" a, operate a .div b,
    given [isNot "%t0" 0, isNegative "%t1", atLeast b 1] increment,
    given [isNot "%t0" 0, atLeast "%t1" 0, isNegative b] increment]

/-- The signed remainder: the scoreboard's has the sign of the divisor, so the divisor is taken off
where the signs differ. -/
def remS (ns : String) (a b : Reg) (c : Option Int) : Script :=
  .join [
    .onlyIf c.isNone (given [is b 0] (trap ns .divideByZero)),
    copy "%t1" a, operate a .mod b,
    given [isNot a 0, isNegative "%t1", atLeast b 1] (operate a .sub b),
    given [isNot a 0, atLeast "%t1" 0, isNegative b] (operate a .sub b)]

def powerOfTwo? (c : Option Int) : Option Nat :=
  match c with
  | some v =>
    let k := v.toNat.log2
    if 0 < v && v == 2 ^ k then some k else none
  | none => none

def divU (ns : String) (a b : Reg) (c : Option Int) (quotient : Bool) : Script :=
  match powerOfTwo? c with
  | some k =>
    if quotient then shiftConst .shrU a k
    else if k < 31 then operate a .mod (const (2 ^ k))
    else .empty
  | none =>
    .onlyIf c.isNone (given [is b 0] (trap ns .divideByZero))
      ++ helper32 ns a b "rt/i32/divu" (if quotient then "%q" else "%rem")

def divide32 (ns : String) (op : IntBin) (a b : Reg) (c : Option Int) : Script :=
  if c == some 0 then trap ns .divideByZero
  else match op with
    | .divS => divS ns a b c
    | .remS => remS ns a b c
    | .divU => divU ns a b c true
    | _ => divU ns a b c false

/-- The bits of two numbers combined; a known mask of low bits is a remainder. -/
def bitwise32 (ns : String) (op : IntBin) (a b : Reg) (c : Option Int) : Script :=
  let general := helper32 ns a b ("rt/i32/" ++ op.name) "%q"
  match c with
  | none => general
  | some mask =>
    if op == .and then
      if mask == -1 then .empty
      else if mask == 0 then set a 0
      else if mask == 0x7fffffff then clearSign a
      else if 0 < mask && (powerOfTwo? (some (mask + 1))).isSome then operate a .mod (const (mask + 1))
      else general
    else if mask == 0 then .empty
    else general

def shift32 (ns : String) (op : IntBin) (a b : Reg) (c : Option Int) : Script :=
  match c with
  | some k => shiftConst op a (k.emod 32).toNat
  | none => helper32 ns a b ("rt/i32/" ++ op.name) "%x"

def binary32 (ns : String) (op : IntBin) (a b : Reg) (c : Option Int) : Script :=
  match op with
  | .add => match c with
    | some v => add a v
    | none => operate a .add b
  | .sub => match c with
    | some v => if v == minInt then operate a .sub b else add a (-v)
    | none => operate a .sub b
  | .mul => operate a .mul b
  | .divS => divide32 ns op a b c
  | .divU => divide32 ns op a b c
  | .remS => divide32 ns op a b c
  | .remU => divide32 ns op a b c
  | .and => bitwise32 ns op a b c
  | .or => bitwise32 ns op a b c
  | .xor => bitwise32 ns op a b c
  | .shl => shift32 ns op a b c
  | .shrS => shift32 ns op a b c
  | .shrU => shift32 ns op a b c
  | .rotl => helper32 ns a b "rt/i32/rotl" "%x"
  | .rotr => helper32 ns a b "rt/i32/rotr" "%x"

/-- How a comparison of two orders, apart from equality: its sign and whether it is unsigned. -/
def relOrder? : IntRel → Option (Comparison × Bool)
  | .eq => none
  | .ne => none
  | .ltS => some (.lt, false)
  | .gtS => some (.gt, false)
  | .leS => some (.le, false)
  | .geS => some (.ge, false)
  | .ltU => some (.lt, true)
  | .gtU => some (.gt, true)
  | .leU => some (.le, true)
  | .geU => some (.ge, true)

def compare32 (op : IntRel) (a b : Reg) : Script :=
  match relOrder? op with
  | none => test a [if op == .eq then cmp a .eq b else cmpNot a .eq b]
  | some (sign, false) => test a [cmp a sign b]
  | some (sign, true) => biasedPair a b ++ test a [cmp "%t0" sign "%t1"]

def unary32 (ns : String) (op : IntUn) (a : Reg) : Script :=
  .join [copy "%x" a, call ns ("rt/i32/" ++ op.name), copy a "%q"]

end ScoreWasm.Emit
