import ScoreWasm.Emit.Int32

/-!
# Bit patterns of floating-point numbers

The operators that only look at signs and at the order of patterns.  `w` tells singles from doubles;
the sign of a double is in its high word.
-/

namespace ScoreWasm.Emit

open Wasm

def signWord (w : Width) (a : Reg) : Reg := w.pick a a.high

def isWide (w : Width) : Bool := w.pick false true

def negate (w : Width) (a : Reg) : Script := operate (signWord w a) .add (const minInt)

def copySign (w : Width) (a b : Reg) : Script :=
  clearSign (signWord w a)
    ++ given [isNegative (signWord w b)] (operate (signWord w a) .add (const minInt))

/-- Leaves in `%q` how two numbers compare: -1, 0 or 1, and 2 if one of them is no number. -/
def orderInto (ns : String) (w : Width) (a b : Reg) : Script :=
  .join [copy "%x" a, copy "%y" b,
    .onlyIf (isWide w) (copy (.high "%x") a.high ++ copy (.high "%y") b.high),
    call ns ("rt/" ++ w.float.name ++ "/cmp")]

def orderClause : FloatRel → Clause
  | .eq => is "%q" 0
  | .ne => isNot "%q" 0
  | .lt => is "%q" (-1)
  | .gt => is "%q" 1
  | .le => within "%q" (.between (-1) 0)
  | .ge => within "%q" (.between 0 1)

def nanWord (w : Width) : Int :=
  w.pick (Ieee.binary32.canonicalNaN : Int) (Ieee.binary64.canonicalNaN / 2 ^ 32 : Int)

/-- The smaller or the larger of two numbers, after they were compared.  Equal numbers differ at most
in the sign of zero; what is no number gives the canonical NaN. -/
def pickOrdered (w : Width) (smaller : Bool) (a b : Reg) : Script :=
  let takeB := [is "%q" (if smaller then 1 else -1)]
  let op : ScoreOp := if smaller then .min else .max
  let sign := signWord w
  .join [
    given takeB (operate a .assign b),
    .onlyIf (isWide w) (given takeB (operate a.high .assign b.high)),
    given [is "%q" 0] (operate (sign a) op (sign b)),
    given [is "%q" 2] (.command (.setScore (sign a).score (nanWord w))),
    .onlyIf (isWide w) (given [is "%q" 2] (.command (.setScore a.score 0)))]

end ScoreWasm.Emit
