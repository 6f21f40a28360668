import ScoreWasm.Library.Int32

/-!
# Comparing floating-point numbers

The order of two numbers, from their bit patterns: -1, 0 or 1 in `%q`, and 2 if one of them is no
number.  Without the sign, patterns are ordered as the numbers are; zeros are equal whatever their
signs.
-/

namespace ScoreWasm.Library

open Emit

def magnitude (dst src : Reg) : Script := copy dst src ++ clearSign dst

/-- Stops with the order of two numbers whose signs differ. -/
def orderBySign (a b : Reg) : Script :=
  given [isNegative a, atLeast b 0] (answer (-1)) ++ given [atLeast a 0, isNegative b] (answer 1)

/-- Turns the order of two magnitudes around if the numbers are negative. -/
def turnIfNegative (sign : Reg) : Script :=
  given [isNegative sign] (operate "%q" .mul (const (-1)))

def orderWords (a b : Reg) : Script :=
  given [cmp a .lt b] (set "%q" (-1)) ++ given [cmp a .gt b] (set "%q" 1)

def singleOrderRoutine : Routine :=
  let infinity : Int := Ieee.binary32.infinity
  ("rt/f32/cmp", .join [
    magnitude "%fa" "%x", magnitude "%fb" "%y",
    set "%q" 2,
    given [atLeast "%fa" (infinity + 1)] (stop 0), given [atLeast "%fb" (infinity + 1)] (stop 0),
    set "%q" 0,
    given [is "%fa" 0, is "%fb" 0] (stop 0),
    orderBySign "%x" "%y",
    orderWords "%fa" "%fb",
    turnIfNegative "%x"])

def stopIfNaN (hi lo : Reg) : Script :=
  let infinity : Int := Ieee.binary64.infinity / 2 ^ 32
  given [atLeast hi (infinity + 1)] (stop 0) ++ given [is hi infinity, isNot lo 0] (stop 0)

def doubleOrderRoutine : Routine :=
  ("rt/f64/cmp", .join [
    magnitude "%fa" (.high "%x"), magnitude "%fb" (.high "%y"),
    set "%q" 2,
    stopIfNaN "%fa" "%x", stopIfNaN "%fb" "%y",
    set "%q" 0,
    given [is "%fa" 0, is "%x" 0, is "%fb" 0, is "%y" 0] (stop 0),
    orderBySign (.high "%x") (.high "%y"),
    copy "%fc" "%x", operate "%fc" .add (const minInt),
    copy "%fd" "%y", operate "%fd" .add (const minInt),
    orderWords "%fa" "%fb",
    given [cmp "%fa" .eq "%fb", cmp "%fc" .lt "%fd"] (set "%q" (-1)),
    given [cmp "%fa" .eq "%fb", cmp "%fc" .gt "%fd"] (set "%q" 1),
    turnIfNegative (.high "%x")])

end ScoreWasm.Library
