import ScoreWasm.Text.Code
import ScoreWasm.Text.Hex
import ScoreWasm.Text.Printable

/-!
# Quoted text in messages

Error messages show a piece of input between quotes.  Single quotes are used unless the text
holds a single quote and no double quote.  A backslash and the quote in use are escaped, tab and
line ends have short escapes, and every other unprintable code point is written with two, four or eight
hexadecimal digits.  Half of a surrogate pair is unprintable.
-/

namespace ScoreWasm.Text

def apostrophe : Char := Char.ofNat 39

def quoteFor (codes : List Nat) : Char :=
  if codes.contains apostrophe.toNat && !codes.contains '"'.toNat then '"' else apostrophe

/-- How one code point is written between the quotes `quote`. -/
def escapeCode (quote : Char) (n : Nat) : List Char :=
  let c := Char.ofNat n
  if c == quote || c == '\\' then ['\\', c]
  else if c == '\n' then ['\\', 'n']
  else if c == '\r' then ['\\', 'r']
  else if c == '\t' then ['\\', 't']
  else if !isHalf n && isPrintable c then [c]
  else if n < 0x100 then ['\\', 'x'] ++ hexPad 2 n
  else if n < 0x10000 then ['\\', 'u'] ++ hexPad 4 n
  else ['\\', 'U'] ++ hexPad 8 n

def quotedCodes (codes : List Nat) : String :=
  let q := quoteFor codes
  String.ofList (q :: (codes.flatMap (escapeCode q) ++ [q]))

def quoted (s : String) : String := quotedCodes (codes s)

end ScoreWasm.Text
