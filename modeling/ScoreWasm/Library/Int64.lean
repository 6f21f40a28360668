import ScoreWasm.Library.Int32

/-!
# Helpers for 64-bit integers

Operands come in `%x`, `%xh` and `%y`, `%yh`; results go to `%q`, `%qh` and remainders to `%rem`, `%remh`.
-/

namespace ScoreWasm.Library

open Emit

/-- The halves of a word, as numbers below `2 ^ 16`. -/
def splitHalves (src lo hi : Reg) : Script :=
  .join [copy lo src, operate lo .mod (const 65536),
    copy hi src, operate hi .div (const 65536), operate hi .mod (const 65536)]

def highHalfInto (dst src : Reg) : Script :=
  .join [copy dst src, operate dst .div (const 65536), operate dst .mod (const 65536)]

def productInto (dst a b : Reg) : Script := copy dst a ++ operate dst .mul b

/-- Multiplication: the high word of the product of two words, and the product of two values. -/
def multiplyRoutines (ns : String) : List Routine :=
  [("rt/i64/mulhi_u", .join [
      splitHalves "%x" "%u0" "%u1", splitHalves "%y" "%v0" "%v1",
      productInto "%ut" "%u0" "%v0",
      highHalfInto "%uk" "%ut",
      productInto "%ut" "%u1" "%v0", operate "%ut" .add "%uk",
      copy "%uw" "%ut", operate "%uw" .mod (const 65536),
      highHalfInto "%uc" "%ut",
      productInto "%ut" "%u0" "%v1", operate "%ut" .add "%uw",
      highHalfInto "%uk" "%ut",
      productInto "%uh" "%u1" "%v1", operate "%uh" .add "%uc", operate "%uh" .add "%uk"]),
   ("rt/i64/mul", .join [
      call ns "rt/i64/mulhi_u", copy (.high "%q") "%uh",
      productInto "%ut" "%x" (.high "%y"), operate (.high "%q") .add "%ut",
      productInto "%ut" (.high "%x") "%y", operate (.high "%q") .add "%ut",
      productInto "%q" "%x" "%y"])]

def doublePair (r carry : Reg) : Script :=
  .join [test carry [isNegative r], operate r.high .add r.high, operate r.high .add carry,
    operate r .add r]

def negatePair (r : Reg) : Script :=
  .join [operate r .mul (const (-1)), operate r.high .mul (const (-1)),
    given [isNot r 0] (add r.high (-1))]

/-- One step of restoring division: a bit of the dividend moves into the remainder, and the divisor is
taken off where it fits. -/
def divisionStepRoutine (ns : String) : Routine :=
  ("rt/i64/divu_step", .join [
    test "%eo" [isNegative (.high "%rem")],
    doublePair "%rem" "%ec",
    test "%eb" [isNegative "%eh"],
    test "%ec" [isNegative "%el"], operate "%eh" .add "%eh", operate "%eh" .add "%ec",
    operate "%el" .add "%el",
    operate "%rem" .add "%eb",
    doublePair "%q" "%ec",
    copy "%eu" (.high "%rem"), operate "%eu" .add (const minInt),
    copy "%ev" "%rem", operate "%ev" .add (const minInt),
    set "%ec" 0,
    given [cmp "%eu" .gt "%eyh"] (set "%ec" 1),
    given [cmp "%eu" .eq "%eyh", cmp "%ev" .ge "%eyl"] (set "%ec" 1),
    given [is "%eo" 1] (set "%ec" 1),
    given [is "%ec" 1] (call ns "rt/i64/divu_sub"),
    add "%en" (-1),
    given [atLeast "%en" 1] (jump ns "rt/i64/divu_step")])

def negateRoutine (name : String) : Routine :=
  ("rt/i64/neg_" ++ name, negatePair (.named ("%" ++ name)))

def wideDivisionRoutines (ns : String) : List Routine :=
  [("rt/i64/divu", .join [
      set "%q" 0, set (.high "%q") 0, set "%rem" 0, set (.high "%rem") 0,
      copy "%el" "%x", copy "%eh" (.high "%x"), set "%en" 64,
      copy "%eyl" "%y", operate "%eyl" .add (const minInt),
      copy "%eyh" (.high "%y"), operate "%eyh" .add (const minInt),
      call ns "rt/i64/divu_step"]),
   divisionStepRoutine ns,
   ("rt/i64/divu_sub", .join [
      test "%ec" [cmp "%ev" .lt "%eyl"],
      operate "%rem" .sub "%y", operate (.high "%rem") .sub (.high "%y"),
      operate (.high "%rem") .sub "%ec", add "%q" 1]),
   negateRoutine "x", negateRoutine "y", negateRoutine "q", negateRoutine "rem",
   ("rt/i64/divs", .join [
      test "%esx" [isNegative (.high "%x")], test "%esy" [isNegative (.high "%y")],
      given [is "%esx" 1] (call ns "rt/i64/neg_x"), given [is "%esy" 1] (call ns "rt/i64/neg_y"),
      call ns "rt/i64/divu",
      copy "%est" "%esx", operate "%est" .add "%esy",
      given [is "%est" 1] (call ns "rt/i64/neg_q"),
      given [is "%esx" 1] (call ns "rt/i64/neg_rem")])]

def shiftWord (ns : String) (src : Reg) (name : String) (dst : Reg) : Script :=
  .join [copy "%x" src, copy "%y" "%hk", call ns ("rt/i32/" ++ name), copy dst "%x"]

/-- A shift of one word by the rest of `%hk` to 32. -/
def shiftWordBack (ns : String) (src : Reg) (name : String) (dst : Reg) : Script :=
  .join [copy "%x" src, set "%y" 32, operate "%y" .sub "%hk", call ns ("rt/i32/" ++ name),
    copy dst "%x"]

/-- A shift: what is common to the three, given how the words are put together for a distance below 32
and for one of 32 or more. -/
def wideShift (ns name : String) (near far : Script) : List Routine :=
  [("rt/i64/" ++ name, .join [
      copy "%hk" "%y", operate "%hk" .mod (const 64),
      copy "%q" "%x", copy (.high "%q") (.high "%x"),
      given [is "%hk" 0] (stop 0),
      given [atLeast "%hk" 32] (jump ns ("rt/i64/" ++ name ++ "_big")),
      copy "%ha" "%x", copy "%hb" (.high "%x"), near]),
   ("rt/i64/" ++ name ++ "_big", .join [copy "%y" "%hk", add "%y" (-32), far])]

/-- A shift to the right; `top` gives the high word when all of it is shifted out. -/
def wideShiftRight (ns name : String) (top : Script) : List Routine :=
  wideShift ns name
    (.join [shiftWord ns "%ha" "shr_u" "%q", shiftWordBack ns "%hb" "shl" "%hc",
      operate "%q" .add "%hc", shiftWord ns "%hb" name (.high "%q")])
    (.join [copy "%x" (.high "%q"), call ns ("rt/i32/" ++ name), copy "%q" "%x", top])

def wideShiftRoutines (ns : String) : List Routine :=
  wideShift ns "shl"
    (.join [shiftWord ns "%hb" "shl" (.high "%q"), shiftWordBack ns "%ha" "shr_u" "%hc",
      operate (.high "%q") .add "%hc", shiftWord ns "%ha" "shl" "%q"])
    (.join [copy "%x" "%q", call ns "rt/i32/shl", copy (.high "%q") "%x", set "%q" 0])
  ++ wideShiftRight ns "shr_u" (set (.high "%q") 0)
  ++ wideShiftRight ns "shr_s" (testMask (.high "%q") [isNegative (.high "%x")])
  ++ [("rt/i64/rotl", .join [
      copy "%hr" "%y", operate "%hr" .mod (const 64),
      copy "%q" "%x", copy (.high "%q") (.high "%x"), given [is "%hr" 0] (stop 0),
      copy "%hx" "%x", copy (.high "%hx") (.high "%x"), copy "%y" "%hr", call ns "rt/i64/shl",
      copy "%hq" "%q", copy (.high "%hq") (.high "%q"),
      copy "%x" "%hx", copy (.high "%x") (.high "%hx"), set "%y" 64, operate "%y" .sub "%hr",
      call ns "rt/i64/shr_u",
      operate "%q" .add "%hq", operate (.high "%q") .add (.high "%hq")]),
    ("rt/i64/rotr", .join [operate "%y" .mul (const (-1)), jump ns "rt/i64/rotl"])]

def wideCountRoutines (ns : String) : List Routine :=
  [("rt/i64/clz", .join [
      copy "%ca" "%x", copy "%x" (.high "%x"), call ns "rt/i32/clz",
      given [isNot "%q" 32] (stop 0),
      copy "%x" "%ca", call ns "rt/i32/clz", add "%q" 32]),
   ("rt/i64/ctz", .join [
      call ns "rt/i32/ctz", given [isNot "%q" 32] (stop 0),
      copy "%x" (.high "%x"), call ns "rt/i32/ctz", add "%q" 32]),
   ("rt/i64/popcnt", .join [
      call ns "rt/i32/popcnt", copy "%ca" "%q", copy "%x" (.high "%x"), call ns "rt/i32/popcnt",
      operate "%q" .add "%ca"])]

end ScoreWasm.Library
