import ScoreWasm.SoftFloat.Code

/-!
# Conversions
-/

namespace ScoreWasm.SoftFloat

open Wasm Code

def opX : Operand := ⟨0, 1, 2, 3, 4⟩

/-- Between the formats: infinities and NaNs, zeros, and then the significand with its exponent moved
from one bias to the other. -/
def reformat (src dst : Width) (exp : Code) : Code :=
  let x : Operand := ⟨0, 1, 2, 3, 4⟩
  x.load src ++ x.unpack src
    ++ when_ (x.special src)
      (when_ (nonzero (var x.sig)) (returnNaN dst)
        ++ ret (fromBits dst (signed dst x.sign (format dst).infinity)))
    ++ when_ (x.isZero src) (ret (fromBits dst (signed dst x.sign 0)))
    ++ x.unhide src
    ++ fromBits dst (call (.pack dst) [var x.sign, exp, var x.sig])

def promoteCode : Code := reformat .x32 .x64 (var opX.exp + 934)

def demoteCode : Code := reformat .x64 .x32 (var opX.exp - 887)

/-- The pattern of a number given by its sign and magnitude.  A magnitude of 64 bits is halved first;
the lost bit stays visible in the last one. -/
def fromIntCode (w : Width) : Code :=
  let sign := 0
  let m := 1
  let e := 2
  when_ (isZero (var m)) (ret 0)
    ++ assign e (nat ((format w).bias + 61))
    ++ when_ (rel .ltS (var m) 0)
      (assign m ((var m >>> 1) ||| (var m &&& 1)) ++ assign e (var e + 1))
    ++ call (.pack w) [var sign, var e, var m]

def convertCode (w : Width) (signed : Bool) : Code :=
  let v := 0
  let s := 1
  if signed then
    assign s (var v >>> 63)
      ++ fromBits w (call (.fromInt w)
        [var s, ((0 - var v) ++ var v ++ low (var s)).andThen (.select none)])
  else fromBits w (call (.fromInt w) [0, var v])

/-- The variable that holds the exponent of two, in a truncation. -/
def powerVar : Nat := 5

def overflow : Code := trap .integerOverflow

/-- Refuses numbers that are too large by their exponent alone. -/
def truncateLimits (dst : Width) (signed : Bool) : Code :=
  let x := opX
  let p := var powerVar
  match dst, signed with
  | .x32, _ => when_ (rel .geU p 32) overflow
  | .x64, true =>
    when_ (rel .geU p 63)
      (when_ (both (both (rel .eq p 63) (isZero (var x.sig))) (low (var x.sign)))
        (ret (nat (2 ^ 63)))
        ++ overflow)
  | .x64, false => when_ (either (low (var x.sign)) (rel .geU p 64)) overflow

/-- The integer with the sign of the operand, where its magnitude fits. -/
def truncateResult (dst : Width) (signed : Bool) : Code :=
  let x := opX
  let m := var x.sig
  match dst, signed with
  | .x64, false => m
  | .x64, true => choose (isZero (var x.sign)) m (0 - m)
  | .x32, false =>
    when_ (either (low (var x.sign)) (rel .geU m (nat 0x100000000))) overflow ++ low m
  | .x32, true =>
    low (choose (isZero (var x.sign))
      (when_ (rel .geU m (nat 0x80000000)) overflow ++ m)
      (when_ (rel .gtU m (nat 0x80000000)) overflow ++ (0 - m)))

def truncateCode (dst : Width) (signed : Bool) : Code :=
  let x := opX
  let p := powerVar
  x.load .x64 ++ x.unpack .x64
    ++ when_ (x.special .x64)
      (when_ (isZero (var x.sig)) overflow ++ trap .invalidConversion)
    ++ when_ (rel .ltU (var x.exp) 1023) (ret (instr (.const dst.int 0)))
    ++ assign p (var x.exp - 1023)
    ++ truncateLimits dst signed
    ++ assign x.sig (var x.sig ||| nat (2 ^ 52))
    ++ assign x.sig (choose (rel .geU (var p) 52)
      (var x.sig <<< (var p - 52)) (var x.sig >>> (52 - var p)))
    ++ truncateResult dst signed

end ScoreWasm.SoftFloat
