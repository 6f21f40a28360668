import ScoreWasm.Text.Code

/-!
# JSON strings in ASCII

A string is written between double quotes with every code point outside printable ASCII escaped,
those above the basic plane as a pair of surrogates, and a lone half of a pair by itself.
-/

namespace ScoreWasm.Json

def hex4 (n : Nat) : List Char :=
  let digits := Nat.toDigits 16 n
  List.replicate (4 - digits.length) '0' ++ digits

def escape (n : Nat) : List Char :=
  let c := Char.ofNat n
  if c == '"' || c == '\\' then ['\\', c]
  else if 32 ≤ n && n < 127 then [c]
  else if c == '\n' then ['\\', 'n']
  else if c == '\r' then ['\\', 'r']
  else if c == '\t' then ['\\', 't']
  else if n == 8 then ['\\', 'b']
  else if n == 12 then ['\\', 'f']
  else if n < 0x10000 then '\\' :: 'u' :: hex4 n
  else
    let k := n - 0x10000
    '\\' :: 'u' :: hex4 (0xd800 + k / 0x400) ++ '\\' :: 'u' :: hex4 (0xdc00 + k % 0x400)

def quoteOnto (acc s : String) : String :=
  ((Text.codes s).foldl (fun a n => (escape n).foldl String.push a) (acc.push '"')).push '"'

def quote (s : String) : String := quoteOnto "" s

end ScoreWasm.Json
