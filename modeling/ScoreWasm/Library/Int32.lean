import ScoreWasm.Emit.Int32
import ScoreWasm.Library.Control

/-!
# Helpers for 32-bit integers

Operands come in `%x` and `%y`.  Quotients, bitwise results and counts go to `%q`, remainders to `%rem`;
shifts and rotations leave their result in `%x`.
-/

namespace ScoreWasm.Library

open Emit

/-- Moves two registers so that comparing them as signed numbers orders them as unsigned ones. -/
def biased (a b : Reg) : Script :=
  .join [copy "%du" a, operate "%du" .add (const minInt), copy "%dv" b,
    operate "%dv" .add (const minInt)]

/-- The unsigned order of the two registers last given to `biased`: not below. -/
def notBelow : List Clause := [cmp "%du" .ge "%dv"]

/-- Unsigned division.  A divisor with its top bit set fits at most once; a dividend with its top bit
set is halved first, and the quotient of the half doubled. -/
def divisionRoutines (ns : String) : List Routine :=
  [("rt/i32/divu", .join [
      given [isNegative "%y"] (jump ns "rt/i32/divu_big"),
      given [atLeast "%x" 0] (jump ns "rt/i32/divu_small"),
      copy "%dh" "%x", operate "%dh" .div (const 2), operate "%dh" .sub (const minInt),
      copy "%db" "%x", operate "%db" .mod (const 2),
      copy "%q" "%dh", operate "%q" .div "%y",
      copy "%rem" "%dh", operate "%rem" .mod "%y",
      operate "%q" .add "%q", operate "%rem" .add "%rem", operate "%rem" .add "%db",
      biased "%rem" "%y",
      given notBelow (add "%q" 1),
      given notBelow (operate "%rem" .sub "%y")]),
   ("rt/i32/divu_big", .join [
      set "%q" 0, copy "%rem" "%x", biased "%x" "%y",
      given notBelow (set "%q" 1),
      given notBelow (operate "%rem" .sub "%y")]),
   ("rt/i32/divu_small", .join [
      copy "%q" "%x", operate "%q" .div "%y", copy "%rem" "%x", operate "%rem" .mod "%y"])]

def lowBits : List Nat := (List.range 31).reverse

/-- One bit of a bitwise operator: `%bs` counts in how many operands it is set. -/
def bitwiseStep (accept : Range) (bit : Nat) : Script :=
  let weight : Int := 2 ^ bit
  .join [
    test "%bx" [atLeast "%ba" weight], test "%by" [atLeast "%bb" weight],
    given [is "%bx" 1] (add "%ba" (-weight)), given [is "%by" 1] (add "%bb" (-weight)),
    copy "%bs" "%bx", operate "%bs" .add "%by",
    given [within "%bs" accept] (add "%q" weight)]

/-- A bitwise operator, given in how many operands a bit must be set. -/
def bitwiseRoutine (name : String) (accept : Range) : Routine :=
  ("rt/i32/" ++ name, .join ([
    set "%q" 0, copy "%ba" "%x", copy "%bb" "%y",
    test "%bx" [isNegative "%ba"], test "%by" [isNegative "%bb"],
    given [is "%bx" 1] (operate "%ba" .sub (const minInt)),
    given [is "%by" 1] (operate "%bb" .sub (const minInt)),
    copy "%bs" "%bx", operate "%bs" .add "%by",
    given [within "%bs" accept] (set "%q" minInt)] ++ lowBits.map (bitwiseStep accept)))

def bitwiseRoutines : List Routine :=
  [bitwiseRoutine "and" (.exactly 2), bitwiseRoutine "or" (.between 1 2),
   bitwiseRoutine "xor" (.exactly 1)]

/-- Applies an operation once for every power of two in the distance `%sk`. -/
def shiftSteps (op : ScoreOp) : Script :=
  .join ([16, 8, 4, 2, 1].map (fun (step : Nat) =>
    given [atLeast "%sk" step] (operate "%x" op (const (2 ^ step)))
      ++ given [atLeast "%sk" step] (add "%sk" (-step))))

def shiftDistance : Script := copy "%sk" "%y" ++ operate "%sk" .mod (const 32)

def shiftRoutines (ns : String) : List Routine :=
  [("rt/i32/shl", shiftDistance ++ shiftSteps .mul),
   ("rt/i32/shr_s", shiftDistance ++ shiftSteps .div),
   ("rt/i32/shr_u", .join [shiftDistance, given [is "%sk" 0] (stop 0),
      operate "%x" .div (const 2), clearSign "%x", add "%sk" (-1), shiftSteps .div]),
   ("rt/i32/rotl", .join [
      copy "%rk" "%y", operate "%rk" .mod (const 32), given [is "%rk" 0] (stop 0),
      copy "%ra" "%x", copy "%y" "%rk", call ns "rt/i32/shl",
      copy "%rt" "%x", copy "%x" "%ra", set "%y" 32, operate "%y" .sub "%rk",
      call ns "rt/i32/shr_u", operate "%x" .add "%rt"]),
   ("rt/i32/rotr", .join [operate "%y" .mul (const (-1)), jump ns "rt/i32/rotl"])]

def answer (v : Int) : Script := .command (.retRun (.setScore (Reg.score "%q") v))

def countRoutines : List Routine :=
  [("rt/i32/clz", .join ([
      set "%q" 0, given [isNegative "%x"] (stop 0), set "%q" 32, given [is "%x" 0] (stop 0)]
      ++ lowBits.map (fun (bit : Nat) => given [atLeast "%x" (2 ^ bit)] (answer (31 - bit))))),
   ("rt/i32/ctz", .join ([
      set "%q" 32, given [is "%x" 0] (stop 0)]
      ++ (List.range 30).map (fun (bit : Nat) => .join [
        copy "%bt" "%x", operate "%bt" .mod (const (2 ^ (bit + 1))),
        given [isNot "%bt" 0] (answer bit)])
      ++ [given [is "%x" minInt] (answer 31), set "%q" 30])),
   ("rt/i32/popcnt", .join ([
      copy "%ba" "%x", test "%q" [isNegative "%ba"], clearSign "%ba"]
      ++ lowBits.map (fun (bit : Nat) =>
        given [atLeast "%ba" (2 ^ bit)] (add "%q" 1)
          ++ given [atLeast "%ba" (2 ^ bit)] (add "%ba" (-(2 ^ bit))))))]

end ScoreWasm.Library
