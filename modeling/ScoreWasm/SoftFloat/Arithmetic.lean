import ScoreWasm.SoftFloat.Code

/-!
# Arithmetic on doubles

Each routine takes its operands apart, settles infinities, NaNs and zeros, works on the significands
and lets the packing routine round.  Singles are computed as doubles and rounded a second time, which
gives the correctly rounded result because a double has more than twice the bits of a single.
-/

namespace ScoreWasm.SoftFloat

open Wasm Code

def opA : Operand := ⟨0, 2, 4, 6, 8⟩

def opB : Operand := ⟨1, 3, 5, 7, 9⟩

/-- A variable for passing use in a routine with two operands. -/
def scratch : Nat := 10

def resultSign : Nat := 11

def openOperands : Code :=
  opA.load .x64 ++ opB.load .x64 ++ opA.unpack .x64 ++ opB.unpack .x64

def swap (x y tmp : Nat) : Code := assign tmp (var x) ++ assign x (var y) ++ assign y (var tmp)

def packed (sign exp sig : Code) : Code := fromBits .x64 (call (.pack .x64) [sign, exp, sig])

def returnSigned (pattern : Nat) : Code := ret (fromBits .x64 (signed .x64 resultSign pattern))

def anyNaN : Code := either (opA.isNaN .x64) (opB.isNaN .x64)

def addCode : Code :=
  let a := opA
  let b := opB
  openOperands
    ++ when_ (a.special .x64)
      (when_ (nonzero (var a.sig)) (returnNaN .x64)
        ++ when_ (b.special .x64)
          (when_ (either (nonzero (var b.sig)) (rel .ne (var a.sign) (var b.sign)))
            (returnNaN .x64))
        ++ ret (var a.value))
    ++ when_ (b.special .x64)
      (when_ (nonzero (var b.sig)) (returnNaN .x64) ++ ret (var b.value))
    ++ when_ (b.isZero .x64)
      (when_ (a.isZero .x64) (ret (fromBits .x64 (var a.bits &&& var b.bits)))
        ++ ret (var a.value))
    ++ when_ (a.isZero .x64) (ret (var b.value))
    ++ a.unhide .x64 ++ b.unhide .x64
    ++ assign a.sig (var a.sig <<< 9) ++ assign b.sig (var b.sig <<< 9)
    ++ when_ (rel .ltS (var a.exp) (var b.exp))
      (swap a.exp b.exp scratch ++ swap a.sig b.sig scratch ++ swap a.sign b.sign scratch)
    ++ assign b.sig (call .shiftRightJam [var b.sig, var a.exp - var b.exp])
    ++ assign resultSign (var a.sign)
    ++ branch (rel .eq (var a.sign) (var b.sign))
      (assign a.sig (var a.sig + var b.sig))
      (when_ (isZero (keep a.sig (var a.sig - var b.sig))) (ret (instr (.const .f64 0)))
        ++ when_ (rel .ltS (var a.sig) 0)
          (assign a.sig (0 - var a.sig) ++ assign resultSign (var b.sign)))
    ++ packed (var resultSign) (var a.exp) (var a.sig)

def mulCode : Code :=
  let a := opA
  let b := opB
  openOperands
    ++ assign resultSign (var a.sign ^^^ var b.sign)
    ++ when_ anyNaN (returnNaN .x64)
    ++ when_ (either (a.special .x64) (b.special .x64))
      (when_ (either (a.isZero .x64) (b.isZero .x64)) (returnNaN .x64)
        ++ returnSigned (format .x64).infinity)
    ++ when_ (either (a.isZero .x64) (b.isZero .x64)) (returnSigned 0)
    ++ a.unhide .x64 ++ b.unhide .x64
    ++ a.normalize scratch ++ b.normalize scratch
    ++ packed (var resultSign) (var a.exp + var b.exp - 1023)
      (call .mulHighJam [var a.sig <<< 11, var b.sig <<< 10])

def quotientVar : Nat := 12

def digitVar : Nat := 13

/-- One step of long division: ten more bits of the quotient. -/
def divisionStep : Code :=
  assign digitVar (quotient (keep opA.sig (var opA.sig <<< 10)) (var opB.sig))
    ++ assign opA.sig (var opA.sig - var digitVar * var opB.sig)
    ++ assign quotientVar ((var quotientVar <<< 10) ||| var digitVar)

def divCode : Code :=
  let a := opA
  let b := opB
  let infinity := (format .x64).infinity
  openOperands
    ++ assign resultSign (var a.sign ^^^ var b.sign)
    ++ when_ anyNaN (returnNaN .x64)
    ++ when_ (a.special .x64)
      (when_ (b.special .x64) (returnNaN .x64) ++ returnSigned infinity)
    ++ when_ (b.special .x64) (returnSigned 0)
    ++ when_ (b.isZero .x64)
      (when_ (a.isZero .x64) (returnNaN .x64) ++ returnSigned infinity)
    ++ when_ (a.isZero .x64) (returnSigned 0)
    ++ a.unhide .x64 ++ b.unhide .x64
    ++ a.normalize scratch ++ b.normalize scratch
    ++ assign scratch 0
    ++ when_ (rel .ltU (var a.sig) (var b.sig))
      (assign a.sig (var a.sig <<< 1) ++ assign scratch 1)
    ++ assign a.sig (var a.sig - var b.sig)
    ++ assign quotientVar 1
    ++ divisionStep ++ divisionStep ++ divisionStep
    ++ divisionStep ++ divisionStep ++ divisionStep
    ++ packed (var resultSign) (var a.exp - var b.exp - var scratch + 1024)
      (var quotientVar ||| flag (nonzero (var a.sig)))

/-- The square root of a double, digit by digit: `q` is the root of the bits used so far and `r`
what is left of them. -/
def sqrtCode : Code :=
  let a : Operand := ⟨0, 1, 2, 3, 4⟩
  let t := 5
  let k := 6
  let q := 7
  let r := 8
  let place := 9
  a.load .x64 ++ a.unpack .x64
    ++ when_ (a.isNaN .x64) (returnNaN .x64)
    ++ when_ (a.isZero .x64) (ret (var a.value))
    ++ when_ (fails (isZero (var a.sign))) (returnNaN .x64)
    ++ when_ (a.special .x64) (ret (var a.value))
    ++ a.unhide .x64
    ++ a.normalize t
    ++ when_ (fails (isZero (keep k (var a.exp - 1075) &&& 1)))
      (assign a.sig (var a.sig <<< 1) ++ assign k (var k - 1))
    ++ assign q 0 ++ assign r 0 ++ assign place 52
    ++ repeatWhile
      (assign r (var r <<< 2)
        ++ when_ (rel .geS (var place) 0)
          (assign r (var r ||| ((var a.sig >>> var place) &&& 3)))
        ++ assign t ((var q <<< 2) ||| 1)
        ++ assign q (var q <<< 1)
        ++ when_ (rel .geU (var r) (var t))
          (assign r (var r - var t) ++ assign q (var q ||| 1)))
      (rel .gtS (keep place (var place - 2)) (lit (-60)))
    ++ packed 0 (shiftSigned (var k - 58) 1 + 1084) (var q ||| flag (nonzero (var r)))

def singleBinary (r : Routine) : Code :=
  call .demote [call r [call .promote [var 0], call .promote [var 1]]]

def singleUnary (r : Routine) : Code := call .demote [call r [call .promote [var 0]]]

end ScoreWasm.SoftFloat
