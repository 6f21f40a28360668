import ScoreWasm.SoftFloat.Code

/-!
# Rounding and packing

Intermediate results are triples of a sign, an exponent and a significand below `2 ^ 63`; with bias
`b` the triple stands for `± sig · 2 ^ (exp - b - 61)`.  A significand that has lost bits to the
right keeps its last bit set for them, which is enough to round correctly later.
-/

namespace ScoreWasm.SoftFloat

open Wasm Code

/-- Shifts to the right by any distance; the last bit of the result also stands for the bits that
were lost. -/
def shiftRightJamCode : Code :=
  let a := 0
  let dist := 1
  when_ (isZero (var dist)) (ret (var a))
    ++ choose (rel .ltU (var dist) 63)
      ((var a >>> var dist) ||| flag (nonzero (var a <<< (64 - var dist))))
      (flag (nonzero (var a)))

def lowHalf (x : Nat) : Code := var x &&& nat 0xffffffff

def highHalf (x : Nat) : Code := var x >>> 32

/-- The high 64 bits of a product of 128; the last bit also stands for the low ones. -/
def mulHighJamCode : Code :=
  let a := 0
  let b := 1
  let a1 := 2
  let a0 := 3
  let b1 := 4
  let b0 := 5
  let p00 := 6
  let p01 := 7
  let p10 := 8
  let mid := 9
  assign a1 (highHalf a) ++ assign a0 (lowHalf a) ++ assign b1 (highHalf b) ++ assign b0 (lowHalf b)
    ++ assign p00 (var a0 * var b0) ++ assign p01 (var a0 * var b1) ++ assign p10 (var a1 * var b0)
    ++ assign mid (highHalf p00 + lowHalf p01 + lowHalf p10)
    ++ ((var a1 * var b1 + highHalf p01 + highHalf p10 + highHalf mid)
      ||| flag (nonzero (lowHalf mid ||| lowHalf p00)))

/-- The number of bits that rounding drops from a significand of 63 bits. -/
def dropped (w : Width) : Nat := 62 - (format w).frac

/-- The pattern nearest to a triple, ties to the even neighbour. -/
def packCode (w : Width) : Code :=
  let sign := 0
  let exp := 1
  let sig := 2
  let shift := 3
  let rest := 4
  let half := nat (2 ^ (dropped w - 1))
  let top := nat ((format w).topExp - 2)
  when_ (isZero (var sig)) (ret (var sign <<< nat (signPlace w)))
    ++ assign shift (leadingZeros (var sig) - 1)
    ++ assign sig (var sig <<< var shift)
    ++ assign exp (var exp - var shift)
    ++ branch (rel .ltS (var exp) 0)
      (assign sig (call .shiftRightJam [var sig, 0 - var exp]) ++ assign exp 0)
      (when_ (either (rel .gtS (var exp) top)
          (both (rel .eq (var exp) top) (rel .geU (var sig + half) (nat (2 ^ 63)))))
        (ret (signed w sign (format w).infinity)))
    ++ assign rest (var sig &&& nat (2 ^ dropped w - 1))
    ++ assign sig ((var sig + half) >>> nat (dropped w))
    ++ when_ (rel .eq (var rest) half) (assign sig (var sig &&& lit (-2)))
    ++ when_ (isZero (var sig)) (assign exp 0)
    ++ ((var sign <<< nat (signPlace w)) + (var exp <<< nat (format w).frac) + var sig)

end ScoreWasm.SoftFloat
