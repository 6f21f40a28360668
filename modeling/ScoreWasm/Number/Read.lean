import ScoreWasm.Number.Binary64
import ScoreWasm.Text.Blank
import ScoreWasm.Text.Digit
import ScoreWasm.Text.Quoted

/-!
# Reading numbers

Integers and decimal numbers as they stand in commands and instruction texts.  White space around
a number is ignored, the decimal digits of every script count, and single underscores may separate
digits.
-/

namespace ScoreWasm.Number

open Text

def plainDigits (cs : List Char) : List Char :=
  cs.map (fun c => match digitValue? c with
    | some d => Char.ofNat (48 + d)
    | none => c)

/-- White space that may stand around a number: the information separators may not. -/
def isMargin (c : Char) : Bool := isBlank c && !(28 ≤ c.toNat && c.toNat ≤ 31)

def body (s : String) : List Char :=
  plainDigits (stripBy isMargin s.toList)

/-- Splits off a sign; `true` stands for minus. -/
def splitSign : List Char → Bool × List Char
  | '-' :: cs => (true, cs)
  | '+' :: cs => (false, cs)
  | cs => (false, cs)

/-- Reads digits of a base.  `afterDigit` says that the last character was a digit, which an
underscore needs before it and the end needs too. -/
def readDigits (base : Nat) : Bool → Nat → List Char → Option Nat
  | afterDigit, n, [] => if afterDigit then some n else none
  | afterDigit, n, c :: cs =>
    if c == '_' then if afterDigit then readDigits base false n cs else none
    else match Text.hexDigit? c with
      | some d => if d < base then readDigits base true (n * base + d) cs else none
      | none => none

def withSign (neg : Bool) (n : Nat) : Int :=
  if neg then -(n : Int) else n

/-- The most digits that a decimal integer may be written with. -/
def digitLimit : Nat := 4300

def isWritable (i : Int) : Bool := i.natAbs < 10 ^ digitLimit

/-- Reads an unsigned decimal integer, which must not have too many digits. -/
def readDecimal (cs : List Char) : Option Nat :=
  if digitLimit < cs.countP Char.isDigit then none else readDigits 10 false 0 cs

def int? (s : String) : Option Int :=
  let (neg, cs) := splitSign (body s)
  (readDecimal cs).map (withSign neg)

/-- Digits after a base mark; one underscore may stand between the mark and the digits. -/
def readMarked (base : Nat) : List Char → Option Nat
  | '_' :: cs => readDigits base false 0 cs
  | cs => readDigits base false 0 cs

/-- Reads an unsigned integer whose base is told by its mark: `0x`, `0o`, `0b`, or none for ten.
Without a mark a leading zero is allowed for zero only. -/
def readMagnitude (cs : List Char) : Option Nat :=
  match cs with
  | '0' :: m :: rest =>
    if m == 'x' || m == 'X' then readMarked 16 rest
    else if m == 'o' || m == 'O' then readMarked 8 rest
    else if m == 'b' || m == 'B' then readMarked 2 rest
    else match readDecimal cs with
      | some 0 => some 0
      | _ => none
  | _ => readDecimal cs

def markedInt? (s : String) : Option Int :=
  let (neg, cs) := splitSign (body s)
  (readMagnitude cs).map (withSign neg)

/-- Removes underscores that stand between two digits; `none` if one stands elsewhere. -/
def dropUnderscores : Option Char → List Char → Option (List Char)
  | _, [] => some []
  | before, c :: cs =>
    if c == '_' then
      match before, cs with
      | some b, d :: _ =>
        if b.isDigit && d.isDigit then dropUnderscores (some c) cs else none
      | _, _ => none
    else (dropUnderscores (some c) cs).map (c :: ·)

/-- The decimal `digits · 10 ^ exp10` as a number.  Sizes far outside the range are decided without
forming the power of ten. -/
def ofDecimal (neg : Bool) (digits : Nat) (exp10 : Int) : Binary64 :=
  let size : Int := (Nat.toDigits 10 digits).length + exp10
  if digits == 0 then Binary64.ofRatio neg 0 1
  else if 400 < size then Binary64.infinity neg
  else if size < -400 then Binary64.ofRatio neg 0 1
  else match exp10 with
    | .ofNat k => Binary64.ofRatio neg (digits * 10 ^ k) 1
    | .negSucc k => Binary64.ofRatio neg digits (10 ^ (k + 1))

inductive Fault where
  | noFloat (token : String)
  | noInteger (base : Nat) (token : String)
  | tooManyDigits (count : Nat)
  | unwritable
  | notANumber
  deriving DecidableEq, Repr

def limitText : String :=
  "Exceeds the limit (" ++ toString digitLimit ++ " digits) for integer string conversion"

def Fault.text : Fault → String
  | noFloat token => "could not convert string to float: " ++ quoted token
  | noInteger base token =>
    "invalid literal for int() with base " ++ toString base ++ ": " ++ take 200 (quoted token)
  | tooManyDigits count =>
    limitText ++ ": value has " ++ toString count
      ++ " digits; use sys.set_int_max_str_digits() to increase the limit"
  | unwritable => limitText
  | notANumber => "cannot convert float NaN to integer"

/-- Why a text is no integer that could be read: it begins with too many digits, or it is none at
all. -/
def integerFault (base : Nat) (token : String) : Fault :=
  let run := (splitSign (body token)).2.takeWhile (fun c => c.isDigit || c == '_')
  let count := run.countP Char.isDigit
  if digitLimit < count && (readDigits 10 false 0 run).isSome then .tooManyDigits count
  else .noInteger base token

def readInt (s : String) : Except Fault Int :=
  match int? s with
  | some i => .ok i
  | none => .error (integerFault 10 s)

def digitsValue (cs : List Char) : Nat :=
  cs.foldl (fun n c => n * 10 + (c.toNat - 48)) 0

def readExponent : List Char → Option Int
  | [] => some 0
  | e :: cs =>
    if e == 'e' || e == 'E' then
      let (neg, ds) := splitSign cs
      if ds.isEmpty || !ds.all Char.isDigit then none
      else some (withSign neg (digitsValue ds))
    else none

/-- Reads an unsigned decimal with optional fraction and exponent, or the name of a special value. -/
def readFloat (neg : Bool) (cs : List Char) : Option Binary64 :=
  let name := cs.map Char.toLower
  if name == "inf".toList || name == "infinity".toList then some (Binary64.infinity neg)
  else if name == "nan".toList then some (Binary64.nan neg)
  else
    let whole := cs.takeWhile Char.isDigit
    let rest := cs.dropWhile Char.isDigit
    let (fraction, tail) := match rest with
      | '.' :: more => (more.takeWhile Char.isDigit, more.dropWhile Char.isDigit)
      | _ => ([], rest)
    if whole.isEmpty && fraction.isEmpty then none
    else (readExponent tail).map (fun e =>
      ofDecimal neg (digitsValue (whole ++ fraction)) (e - fraction.length))

def float? (s : String) : Option Binary64 :=
  match dropUnderscores none (body s) with
  | none => none
  | some cs =>
    let (neg, magnitude) := splitSign cs
    readFloat neg magnitude

end ScoreWasm.Number
