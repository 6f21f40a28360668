/-!
# Binary floating-point formats

A format is given by the widths of its fraction and exponent fields.  Bit patterns are natural
numbers; `decode` reads one as a value `± m · 2 ^ e`, and `round` gives the pattern of the number
nearest to an exact quotient, ties to the even neighbour, with gradual underflow and overflow to
infinity.  All arithmetic is exact on natural numbers, so nothing here depends on a machine's own
floating-point unit.
-/

namespace ScoreWasm

/-- Powers have natural exponents, and are those of the core library wherever a module stands. -/
@[default_instance 20000]
instance (priority := 20000) naturalPower {α : Type} [NatPow α] : Pow α Nat := instPowNat

end ScoreWasm

namespace ScoreWasm.Ieee

/-- A binary interchange format: `frac` fraction bits below `exp` exponent bits. -/
structure Format where
  frac : Nat
  exp : Nat
  deriving DecidableEq, Repr

def binary32 : Format := ⟨23, 8⟩

def binary64 : Format := ⟨52, 11⟩

namespace Format

def topExp (f : Format) : Nat := 2 ^ f.exp - 1

def signBit (f : Format) : Nat := 2 ^ (f.frac + f.exp)

def bias (f : Format) : Nat := 2 ^ (f.exp - 1) - 1

def minExp (f : Format) : Int := 1 - f.bias - f.frac

def infinity (f : Format) : Nat := f.topExp * 2 ^ f.frac

def canonicalNaN (f : Format) : Nat := f.infinity + 2 ^ (f.frac - 1)

def signed (f : Format) (neg : Bool) (pattern : Nat) : Nat :=
  if neg then f.signBit + pattern else pattern

end Format

/-- What a bit pattern denotes: `finite neg m e` is `± m · 2 ^ e`. -/
inductive Value where
  | nan (neg : Bool) (payload : Nat)
  | inf (neg : Bool)
  | finite (neg : Bool) (m : Nat) (e : Int)
  deriving DecidableEq, Repr

/-- The value of a bit pattern; bits above the sign are ignored. -/
def Format.decode (f : Format) (bits : Nat) : Value :=
  let neg := bits / f.signBit % 2 == 1
  let e := bits / 2 ^ f.frac % 2 ^ f.exp
  let m := bits % 2 ^ f.frac
  if e == f.topExp then if m == 0 then .inf neg else .nan neg m
  else if e == 0 then .finite neg m f.minExp
  else .finite neg (m + 2 ^ f.frac) (f.minExp + (e - 1 : Nat))

/-- `num / den` rounded to the nearest natural number, ties to even. -/
def roundHalfEven (num den : Nat) : Nat :=
  let q := num / den
  let r := num % den
  if 2 * r < den then q
  else if den < 2 * r then q + 1
  else if q % 2 == 0 then q else q + 1

/-- The integer `e` with `2 ^ e ≤ num / den < 2 ^ (e + 1)`, for positive arguments. -/
def floorLog2 (num den : Nat) : Int :=
  let e : Int := (num.log2 : Int) - den.log2
  let fits : Bool := match e with
    | .ofNat k => den * 2 ^ k ≤ num
    | .negSucc k => den ≤ num * 2 ^ (k + 1)
  if fits then e else e - 1

/-- `num / (den · 2 ^ q)` rounded to nearest, ties to even. -/
def roundScaled (num den : Nat) (q : Int) : Nat :=
  match q with
  | .ofNat k => roundHalfEven num (den * 2 ^ k)
  | .negSucc k => roundHalfEven (num * 2 ^ (k + 1)) den

/-- The pattern, without sign, of `num / den` rounded to nearest, ties to even.  The last place is
the one that the magnitude calls for, but never below that of the subnormal numbers; a carry out of
the fraction runs into the exponent field, which is the right successor. -/
def Format.roundMagnitude (f : Format) (num den : Nat) : Nat :=
  if num == 0 then 0
  else
    let q := max (floorLog2 num den - f.frac) f.minExp
    min ((q - f.minExp).toNat * 2 ^ f.frac + roundScaled num den q) f.infinity

/-- The pattern of `± num / den` rounded to nearest, ties to even. -/
def Format.round (f : Format) (neg : Bool) (num den : Nat) : Nat :=
  f.signed neg (f.roundMagnitude num den)

/-- The pattern of `± m · 2 ^ e` rounded to nearest, ties to even. -/
def Format.roundDyadic (f : Format) (neg : Bool) (m : Nat) (e : Int) : Nat :=
  match e with
  | .ofNat k => f.round neg (m * 2 ^ k) 1
  | .negSucc k => f.round neg m (2 ^ (k + 1))

def Format.isNaN (f : Format) (bits : Nat) : Bool :=
  match f.decode bits with
  | .nan _ _ => true
  | _ => false

/-- Carries a pattern of one format over to another; `none` when a finite value overflows.  A NaN
keeps its sign and the leading bits of its payload and becomes quiet. -/
def Format.convert? (src dst : Format) (bits : Nat) : Option Nat :=
  match src.decode bits with
  | .inf neg => some (dst.signed neg dst.infinity)
  | .nan neg payload =>
    let moved :=
      if src.frac ≤ dst.frac then payload * 2 ^ (dst.frac - src.frac)
      else payload / 2 ^ (src.frac - dst.frac)
    some (dst.signed neg (dst.infinity + (moved ||| 2 ^ (dst.frac - 1))))
  | .finite neg m e =>
    let out := dst.roundDyadic neg m e
    if out % dst.signBit == dst.infinity then none else some out

end ScoreWasm.Ieee
