import ScoreWasm.SoftFloat.Code

/-!
# Rounding to integral numbers
-/

namespace ScoreWasm.SoftFloat

open Wasm Code

structure Integral where
  value : Nat := 0
  bits : Nat := 1
  exp : Nat := 2
  sign : Nat := 3
  mask : Nat := 4
  down : Nat := 5
  half : Nat := 6

def integral : Integral := {}

/-- The pattern of a number of magnitude below one, rounded. -/
def roundSmall (w : Width) (mode : Rounding) : Code :=
  let x := integral
  let one := onePattern w
  let minus := (format w).signBit
  let outward (positive negative : Nat) : Code :=
    choose (isZeroPattern w x.bits) (var x.bits)
      (choose (isZero (var x.sign)) (nat positive) (nat negative))
  match mode with
  | .trunc => signed w x.sign 0
  | .nearest =>
    choose (both (rel .eq (var x.exp) (nat ((format w).bias - 1))) (nonzero (fracField w x.bits)))
      (signed w x.sign one) (signed w x.sign 0)
  | .floor => outward 0 (minus + one)
  | .ceil => outward one minus

def clearFraction (a : Code) : Code := a &&& (var integral.mask ^^^ lit (-1))

/-- The pattern of a number with a fraction and of magnitude one or more, rounded. -/
def roundLarge (mode : Rounding) : Code :=
  let x := integral
  let fraction := var x.bits &&& var x.mask
  let awayIf (test : Code) : Code :=
    clearFraction (choose test (var x.bits + var x.mask) (var x.bits))
  match mode with
  | .trunc => clearFraction (var x.bits)
  | .nearest =>
    assign x.down (clearFraction (var x.bits))
      ++ choose
        (either (rel .gtU fraction (keep x.half ((var x.mask + 1) >>> 1)))
          (both (rel .eq fraction (var x.half)) (nonzero (var x.down &&& (var x.mask + 1)))))
        (var x.down + var x.mask + 1) (var x.down)
  | .floor => awayIf (fails (isZero (var x.sign)))
  | .ceil => awayIf (isZero (var x.sign))

def integralCode (w : Width) (mode : Rounding) : Code :=
  let x := integral
  let wholeExp := (format w).bias + (format w).frac
  assign x.bits (toBits w (var x.value))
    ++ assign x.exp (expField w x.bits)
    ++ assign x.sign (signField w x.bits)
    ++ when_ (both (isSpecial w x.exp) (nonzero (fracField w x.bits))) (returnNaN w)
    ++ when_ (rel .geU (var x.exp) (nat wholeExp)) (ret (var x.value))
    ++ when_ (rel .ltU (var x.exp) (nat (format w).bias)) (ret (fromBits w (roundSmall w mode)))
    ++ when_ (isZero (keep x.mask ((1 <<< (nat wholeExp - var x.exp)) - 1) &&& var x.bits))
      (ret (var x.value))
    ++ fromBits w (roundLarge mode)

end ScoreWasm.SoftFloat
