import ScoreWasm.Text.Quoted

/-!
# UTF-8

Encoding by the standard library's rule, except that half of a surrogate pair cannot be encoded, and a
strict decoder: no overlong forms, no surrogates, and nothing above the last code point.
-/

namespace ScoreWasm.Text

/-! ### Encoding -/

structure HalfFault where
  first : Nat
  position : Nat
  count : Nat
  deriving DecidableEq, Repr

def HalfFault.text (f : HalfFault) : String :=
  let place := if f.count == 1 then "character " ++ quotedCodes [f.first] ++ " in position "
      ++ toString f.position
    else "characters in position " ++ toString f.position ++ "-" ++ toString (f.position + f.count - 1)
  quoted "utf-8" ++ " codec can" ++ String.singleton apostrophe ++ "t encode " ++ place
    ++ ": surrogates not allowed"

/-- The first code point that cannot be encoded, with the halves of surrogate pairs after it. -/
def unencodable? (isBad : Nat → Bool) (codes : List Nat) : Option HalfFault :=
  let before := codes.takeWhile (fun n => !isBad n)
  match codes.drop before.length with
  | [] => none
  | n :: rest => some ⟨n, before.length, 1 + (rest.takeWhile isHalf).length⟩

/-- The bytes of a text, in an array.  Without a mark, text is encoded as its characters are. -/
def utf8Array (s : String) : Except HalfFault ByteArray :=
  if s.any (fun (c : Char) => isMark c.toNat) then
    match unencodable? isHalf (codes s) with
    | none => .ok (String.ofList ((codes s).map Char.ofNat)).toUTF8
    | some f => .error f
  else .ok s.toUTF8

def utf8 (s : String) : Except HalfFault (List UInt8) := (utf8Array s).map ByteArray.toList

/-! ### Decoding -/

/-- What is wrong with bytes. -/
inductive Utf8Issue where
  | start
  | continuation
  | ended
  deriving DecidableEq, Repr

structure Utf8Fault where
  issue : Utf8Issue
  first : UInt8
  position : Nat
  count : Nat
  deriving DecidableEq, Repr

def Utf8Fault.text (f : Utf8Fault) : String :=
  let place := if f.count == 1 then "byte 0x" ++ hexText [f.first] ++ " in position " ++ toString f.position
    else "bytes in position " ++ toString f.position ++ "-" ++ toString (f.position + f.count - 1)
  let reason := match f.issue with
    | .start => "invalid start byte"
    | .continuation => "invalid continuation byte"
    | .ended => "unexpected end of data"
  quoted "utf-8" ++ " codec can" ++ String.singleton apostrophe ++ "t decode " ++ place ++ ": " ++ reason

def isContinuation (b : UInt8) : Bool := 0x80 ≤ b && b < 0xc0

/-- Whether a byte may follow the first byte of a character: no overlong form, no surrogate and nothing
above the last code point begins so. -/
def mayFollow (a b : UInt8) : Bool :=
  isContinuation b
    && (a != 0xe0 || 0xa0 ≤ b) && (a != 0xed || b < 0xa0)
    && (a != 0xf0 || 0x90 ≤ b) && (a != 0xf4 || b < 0x90)

/-- How many bytes a character has, from its first one; none if it begins no character. -/
def characterSize (a : UInt8) : Nat :=
  if a < 0x80 then 1
  else if a < 0xc2 then 0
  else if a < 0xe0 then 2
  else if a < 0xf0 then 3
  else if a < 0xf5 then 4
  else 0

def fitting (a : UInt8) : List UInt8 → Nat
  | [] => 0
  | b :: rest => if mayFollow a b then 1 + (rest.takeWhile isContinuation).length else 0

/-- The code point of a character's bytes: the bits of the first byte below its length mark, and six of
each other. -/
def codePoint (a : UInt8) (rest : List UInt8) : Nat :=
  let top := match rest.length with
    | 0 => a.toNat
    | 1 => a.toNat % 32
    | 2 => a.toNat % 16
    | _ => a.toNat % 8
  rest.foldl (fun n b => n * 64 + b.toNat % 64) top

/-- The first code point of bytes and the number of those it takes, or an issue with some of them. -/
def decodeCode (a : UInt8) (rest : List UInt8) : Except (Utf8Issue × Nat) (Nat × Nat) :=
  match characterSize a with
  | 0 => .error (.start, 1)
  | size + 1 =>
    let tail := rest.take size
    let good := fitting a tail
    if good == size then .ok (codePoint a tail, size + 1)
    else if good == tail.length then .error (.ended, good + 1)
    else .error (.continuation, good + 1)

/-- Decodes bytes from a position on, after code points in reverse; each takes at least one byte. -/
def decodeFrom : Nat → Nat → List Nat → List UInt8 → Except Utf8Fault (List Nat)
  | _, _, done, [] => .ok done.reverse
  | 0, position, _, a :: _ => .error ⟨.start, a, position, 1⟩
  | fuel + 1, position, done, a :: rest =>
    match decodeCode a rest with
    | .ok (n, size) => decodeFrom fuel (position + size) (n :: done) (rest.drop (size - 1))
    | .error (issue, count) => .error ⟨issue, a, position, count⟩

def decodeUtf8 (bs : List UInt8) : Except Utf8Fault String :=
  (decodeFrom bs.length 0 [] bs).map ofCodes

/-! ### Names of files

The name of a file is any bytes.  Those that are no text are written as the low halves of surrogate pairs
from `U+DC80` on, so that every name has a text and different names have different texts. -/

def isLooseByte (n : Nat) : Bool := 0xdc80 ≤ n && n < 0xdd00

def nameBytes (s : String) : Except HalfFault (List UInt8) :=
  match unencodable? (fun n => isHalf n && !isLooseByte n) (codes s) with
  | none => .ok ((codes s).flatMap (fun n =>
      if isLooseByte n then [UInt8.ofNat (n - 0xdc00)] else String.utf8EncodeChar (Char.ofNat n)))
  | some f => .error f

/-- The code points of the name that bytes are, after others in reverse; each takes at least one byte. -/
def nameFrom : Nat → List Nat → List UInt8 → List Nat
  | 0, done, _ | _, done, [] => done.reverse
  | fuel + 1, done, a :: rest =>
    match decodeCode a rest with
    | .ok (n, size) => nameFrom fuel (n :: done) (rest.drop (size - 1))
    | .error _ => nameFrom fuel ((0xdc00 + a.toNat) :: done) rest

def nameOfBytes (bs : List UInt8) : String := ofCodes (nameFrom bs.length [] bs)

end ScoreWasm.Text
