/-!
# Hexadecimal digits

Bytes are written as two lower-case digits each.  Reading takes digits of either case and lets white
space stand between bytes.
-/

namespace ScoreWasm.Text

/-- The lower-case hexadecimal digits of `n`, padded with zeros to `width`. -/
def hexPad (width n : Nat) : List Char :=
  let digits := Nat.toDigits 16 n
  List.replicate (width - digits.length) '0' ++ digits

def hexDigit? (c : Char) : Option Nat :=
  if c.isDigit then some (c.toNat - 48)
  else if 'a' ≤ c && c ≤ 'f' then some (c.toNat - 87)
  else if 'A' ≤ c && c ≤ 'F' then some (c.toNat - 55)
  else none

def hexText (bytes : List UInt8) : String :=
  String.ofList (bytes.flatMap (fun b => hexPad 2 b.toNat))

def isHexGap (c : Char) : Bool := c == ' ' || (9 ≤ c.toNat && c.toNat ≤ 13)

def readHex : List Char → Option (List UInt8)
  | [] => some []
  | a :: cs =>
    if isHexGap a then readHex cs
    else match cs with
      | [] => none
      | b :: rest => do
        let high ← hexDigit? a
        let low ← hexDigit? b
        return UInt8.ofNat (16 * high + low) :: (← readHex rest)

end ScoreWasm.Text
