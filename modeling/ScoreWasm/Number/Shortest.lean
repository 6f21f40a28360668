import ScoreWasm.Number.Binary64

/-!
# Shortest decimal text of a number

The digits of a number are the fewest that read back as the same number; among those of that
length, the nearest.  A number `m · 2 ^ e` is read back from every decimal in the interval between
the midpoints to its two neighbours, the ends included when `m` is even.  For each length the two
decimals on either side of the number are tried, so the first length with a hit is the least.

The text is positional for exponents from −4 to 15 and scientific outside, always with a point or
an exponent.
-/

namespace ScoreWasm.Decimal

open Ieee

structure Ratio where
  num : Nat
  den : Nat

namespace Ratio

def dyadic (m : Nat) (e : Int) : Ratio :=
  match e with
  | .ofNat k => ⟨m * 2 ^ k, 1⟩
  | .negSucc k => ⟨m, 2 ^ (k + 1)⟩

def decimal (m : Nat) (e : Int) : Ratio :=
  match e with
  | .ofNat k => ⟨m * 10 ^ k, 1⟩
  | .negSucc k => ⟨m, 10 ^ (k + 1)⟩

def le (a b : Ratio) : Bool := a.num * b.den ≤ b.num * a.den

def lt (a b : Ratio) : Bool := a.num * b.den < b.num * a.den

def distance (a b : Ratio) : Ratio :=
  let x := a.num * b.den
  let y := b.num * a.den
  ⟨(x - y) + (y - x), a.den * b.den⟩

end Ratio

/-- The midpoints below and above `m · 2 ^ e`: the gap below a power of two is half as wide. -/
def midpoints (m : Nat) (e : Int) : Ratio × Ratio :=
  let low :=
    if m == 2 ^ binary64.frac && binary64.minExp < e then Ratio.dyadic (4 * m - 1) (e - 2)
    else Ratio.dyadic (2 * m - 1) (e - 1)
  (low, Ratio.dyadic (2 * m + 1) (e - 1))

/-- Whether a decimal reads back as `m · 2 ^ e`. -/
def readsBack (m : Nat) (e : Int) (x : Ratio) : Bool :=
  let (low, high) := midpoints m e
  if m % 2 == 0 then low.le x && x.le high else low.lt x && x.lt high

/-- The number of decimal digits of `num / den` before the point, minus one. -/
def floorLog10 (x : Ratio) : Int :=
  let digits (n : Nat) : Nat := (Nat.toDigits 10 n).length
  let guess : Int := (digits x.num : Int) - digits x.den
  if (Ratio.decimal 1 guess).le x then guess else guess - 1

/-- Tries decimals of `n` digits: the one just below the number and the one just above it. -/
def tryLength (m : Nat) (e : Int) (n : Nat) : Option (Nat × Int) :=
  let x := Ratio.dyadic m e
  let place := floorLog10 x - (n - 1 : Nat)
  let below := match place with
    | .ofNat k => x.num / (x.den * 10 ^ k)
    | .negSucc k => x.num * 10 ^ (k + 1) / x.den
  let lowRatio := Ratio.decimal below place
  let highRatio := Ratio.decimal (below + 1) place
  match readsBack m e lowRatio, readsBack m e highRatio with
  | true, false => some (below, place)
  | false, true => some (below + 1, place)
  | true, true =>
    let down := lowRatio.distance x
    let up := highRatio.distance x
    if down.lt up then some (below, place)
    else if up.lt down then some (below + 1, place)
    else some (if below % 2 == 0 then below else below + 1, place)
  | false, false => none

/-- The shortest decimal `d · 10 ^ p` that reads back as the positive number `m · 2 ^ e`. -/
def shortest (m : Nat) (e : Int) : Nat × Int :=
  ((List.range 17).findSome? (fun i => tryLength m e (i + 1))).getD (m, e)

def trimZeros (digits : List Char) : List Char :=
  (digits.reverse.dropWhile (· == '0')).reverse

def exponentText (e : Int) : List Char :=
  let digits := Nat.toDigits 10 e.natAbs
  (if e < 0 then '-' else '+') :: (if digits.length < 2 then '0' :: digits else digits)

/-- The text of `d · 10 ^ p` for a positive `d`. -/
def layout (d : Nat) (p : Int) : List Char :=
  let digits := Nat.toDigits 10 d
  let lead : Int := p + (digits.length - 1 : Nat)
  let core := trimZeros digits
  if lead < -4 || 16 ≤ lead then
    let fraction := core.drop 1
    core.take 1 ++ (if fraction.isEmpty then [] else '.' :: fraction) ++ 'e' :: exponentText lead
  else if lead < 0 then
    '0' :: '.' :: (List.replicate (-lead - 1).toNat '0' ++ core)
  else
    let whole := lead.toNat + 1
    let padded := core ++ List.replicate (whole - core.length) '0'
    let fraction := padded.drop whole
    padded.take whole ++ '.' :: (if fraction.isEmpty then ['0'] else fraction)

end ScoreWasm.Decimal

namespace ScoreWasm

def Binary64.text (x : Binary64) : String :=
  match x.value with
  | .nan _ _ => "nan"
  | .inf neg => if neg then "-inf" else "inf"
  | .finite neg m e =>
    let body :=
      if m == 0 then ['0', '.', '0']
      else
        let (d, p) := Decimal.shortest m e
        Decimal.layout d p
    String.ofList (if neg then '-' :: body else body)

end ScoreWasm
