import ScoreWasm.Json.Basic
import ScoreWasm.Number.Read

/-!
# Reading JSON

A reader for the standard grammar, with the three names of non-finite numbers allowed.  Control
characters may not stand in strings, and a repeated field keeps its first place and last value.
The recursion is bounded by twice the length of the text: every second step takes a character.

What is wrong with a text is reported with the place where it was noticed, which the reader gives as
the characters from there on.
-/

namespace ScoreWasm.Json

inductive Issue where
  | mark
  | value
  | property
  | colon
  | comma
  | extra
  | unterminated
  | control
  | escape
  | unit
  deriving DecidableEq, Repr

def Issue.text : Issue → String
  | mark => "Unexpected UTF-8 BOM (decode using utf-8-sig)"
  | value => "Expecting value"
  | property => "Expecting property name enclosed in double quotes"
  | colon => "Expecting " ++ Text.quoted ":" ++ " delimiter"
  | comma => "Expecting " ++ Text.quoted "," ++ " delimiter"
  | extra => "Extra data"
  | unterminated => "Unterminated string starting at"
  | control => "Invalid control character at"
  | escape => "Invalid \\escape"
  | unit => "Invalid \\uXXXX escape"

inductive Nest where
  | array
  | object
  deriving DecidableEq, Repr

def depthLimit : Nat := 987

inductive Fault where
  | malformed (issue : Issue) (line column char : Nat)
  | number (f : Number.Fault)
  | tooDeep (nest : Nest)
  deriving DecidableEq, Repr

def Fault.text : Fault → String
  | malformed issue line column char =>
    issue.text ++ ": line " ++ toString line ++ " column " ++ toString column ++ " (char "
      ++ toString char ++ ")"
  | number f => f.text
  | tooDeep nest => "maximum recursion depth exceeded while decoding a JSON "
      ++ (match nest with | .array => "array" | .object => "object") ++ " from a unicode string"

/-- A failure on the way: an issue with the characters from its place on, a number that is too long, or
one level too many. -/
inductive Failure where
  | at (issue : Issue) (rest : List Char)
  | tooManyDigits (count : Nat)
  | tooDeep (nest : Nest)

def isGap (c : Char) : Bool := c == ' ' || c == '\t' || c == '\n' || c == '\r'

def skipGap (cs : List Char) : List Char := cs.dropWhile isGap

/-- Reads four hexadecimal digits; something must follow them. -/
def readHex4 : List Char → Option (Nat × List Char)
  | a :: b :: c :: d :: e :: rest =>
    match Text.hexDigit? a, Text.hexDigit? b, Text.hexDigit? c, Text.hexDigit? d with
    | some a, some b, some c, some d => some (((a * 16 + b) * 16 + c) * 16 + d, e :: rest)
    | _, _, _, _ => none
  | _ => none

/-- Reads a code unit after a backslash, the `u` included. -/
def readUnit (cs : List Char) : Except Failure (Nat × List Char) :=
  match readHex4 (cs.drop 1) with
  | some r => .ok r
  | none => .error (.at .unit cs)

/-- Reads a code point after a backslash, the `u` included; the first half of a surrogate pair takes the
second along if that is written after it. -/
def readUnits (cs : List Char) : Except Failure (Nat × List Char) := do
  let (hi, rest) ← readUnit cs
  if 0xd800 ≤ hi && hi < 0xdc00 then
    match rest with
    | '\\' :: 'u' :: more =>
      let (lo, after) ← readUnit ('u' :: more)
      if 0xdc00 ≤ lo && lo < 0xe000 then
        return (0x10000 + (hi - 0xd800) * 0x400 + (lo - 0xdc00), after)
      else return (hi, rest)
    | _ => return (hi, rest)
  else return (hi, rest)

def shortEscape? (c : Char) : Option Char :=
  if c == '"' || c == '\\' || c == '/' then some c
  else if c == 'n' then some '\n'
  else if c == 'r' then some '\r'
  else if c == 't' then some '\t'
  else if c == 'b' then some (Char.ofNat 8)
  else if c == 'f' then some (Char.ofNat 12)
  else none

/-- Reads a string up to its closing quote; `start` are the characters from its opening quote on. -/
def readString (start : List Char) :
    Nat → String → List Char → Except Failure (String × List Char)
  | 0, _, _ => .error (.at .unterminated start)
  | _, _, [] => .error (.at .unterminated start)
  | fuel + 1, acc, c :: cs =>
    if c == '"' then .ok (acc, cs)
    else if c == '\\' then
      match cs with
      | 'u' :: _ =>
        match readUnits cs with
        | .ok (n, rest) => readString start fuel ((Text.ofCode n).foldl String.push acc) rest
        | .error e => .error e
      | e :: more =>
        match shortEscape? e with
        | some u => readString start fuel (acc.push u) more
        | none => .error (.at .escape (c :: cs))
      | [] => .error (.at .unterminated start)
    else if c.toNat < 32 then .error (.at .control (c :: cs))
    else readString start fuel (acc.push c) cs

def takeFraction : List Char → List Char × List Char
  | '.' :: cs =>
    let ds := cs.takeWhile Char.isDigit
    if ds.isEmpty then ([], '.' :: cs) else ('.' :: ds, cs.dropWhile Char.isDigit)
  | cs => ([], cs)

def takeExponent (cs : List Char) : List Char × List Char :=
  match cs with
  | e :: rest =>
    if e == 'e' || e == 'E' then
      let (sign, body) := match rest with
        | '+' :: more => (['+'], more)
        | '-' :: more => (['-'], more)
        | _ => ([], rest)
      let ds := body.takeWhile Char.isDigit
      if ds.isEmpty then ([], cs) else (e :: sign ++ ds, body.dropWhile Char.isDigit)
    else ([], cs)
  | [] => ([], [])

/-- Reads an unsigned number, which begins with a digit: an integer unless a fraction or an exponent
follows. -/
def readNumber (neg : Bool) (cs : List Char) : Except Failure (Json × List Char) :=
  let (whole, rest) := match cs with
    | '0' :: more => (['0'], more)
    | _ => (cs.takeWhile Char.isDigit, cs.dropWhile Char.isDigit)
  let (fraction, rest) := takeFraction rest
  let (exponent, rest) := takeExponent rest
  if fraction.isEmpty && exponent.isEmpty then
    if Number.digitLimit < whole.length then .error (.tooManyDigits whole.length)
    else .ok (.int (Number.withSign neg (Number.digitsValue whole)), rest)
  else match Number.readFloat neg (whole ++ fraction ++ exponent) with
    | some x => .ok (.float x, rest)
    | none => .error (.at .value cs)

def readWord (cs : List Char) : Except Failure (Json × List Char) :=
  let words : List (String × Json) :=
    [("null", .null), ("true", .bool true), ("false", .bool false),
     ("NaN", .float (Binary64.nan false)), ("Infinity", .float (Binary64.infinity false)),
     ("-Infinity", .float (Binary64.infinity true))]
  match words.findSome? (fun w =>
    if w.1.toList.isPrefixOf cs then some (w.2, cs.drop w.1.length) else none) with
  | some r => .ok r
  | none => .error (.at .value cs)

mutual

/-- Reads a value at the front of the characters, which may be nested to a depth. -/
def readValue : Nat → Nat → List Char → Except Failure (Json × List Char)
  | 0, _, cs => .error (.at .value cs)
  | fuel + 1, depth, cs =>
    match cs with
    | '"' :: rest => (readString cs (fuel + 1) "" rest).map (fun r => (.str r.1, r.2))
    | '[' :: rest =>
      match depth, skipGap rest with
      | 0, _ => .error (.tooDeep .array)
      | _, ']' :: after => .ok (.arr [], after)
      | depth + 1, inside => readItems fuel depth [] inside
    | '-' :: d :: rest => if d.isDigit then readNumber true (d :: rest) else readWord cs
    | c :: rest =>
      if c == Char.ofNat 123 then
        match depth, skipGap rest with
        | 0, _ => .error (.tooDeep .object)
        | depth + 1, d :: after =>
          if d == Char.ofNat 125 then .ok (.obj [], after) else readFields fuel depth [] (d :: after)
        | _, [] => .error (.at .property [])
      else if c.isDigit then readNumber false cs
      else readWord cs
    | [] => .error (.at .value [])

/-- Reads the items of an array up to its bracket; the items before are reversed. -/
def readItems : Nat → Nat → List Json → List Char → Except Failure (Json × List Char)
  | 0, _, _, cs => .error (.at .value cs)
  | fuel + 1, depth, done, cs =>
    match readValue fuel depth cs with
    | .error e => .error e
    | .ok (v, rest) =>
      match skipGap rest with
      | ',' :: more => readItems fuel depth (v :: done) (skipGap more)
      | ']' :: after => .ok (.arr (v :: done).reverse, after)
      | other => .error (.at .comma other)

def readFields : Nat → Nat → List (String × Json) → List Char → Except Failure (Json × List Char)
  | 0, _, _, cs => .error (.at .property cs)
  | fuel + 1, depth, done, cs =>
    match cs with
    | '"' :: inside =>
      match readString cs (fuel + 1) "" inside with
      | .error e => .error e
      | .ok (name, rest) =>
        match skipGap rest with
        | ':' :: more =>
          match readValue fuel depth (skipGap more) with
          | .error e => .error e
          | .ok (v, rest) =>
            let fields := setField name v done
            match skipGap rest with
            | c :: more =>
              if c == ',' then readFields fuel depth fields (skipGap more)
              else if c == Char.ofNat 125 then .ok (.obj fields, more)
              else .error (.at .comma (c :: more))
            | [] => .error (.at .comma [])
        | other => .error (.at .colon other)
    | other => .error (.at .property other)

end

/-- The fault of an issue in a text, with the characters from its place on.  Places are counted in code
points. -/
def faultAt (text : List Char) (issue : Issue) (rest : List Char) : Fault :=
  let before := text.take (text.length - rest.length)
  let line := before.count '\n' + 1
  let column := (Text.codesOf (before.reverse.takeWhile (· != '\n')).reverse).length + 1
  .malformed issue line column (Text.codesOf before).length

def parse (s : String) : Except Fault Json :=
  let text := s.toList
  let fault : Failure → Fault
    | .at issue rest => faultAt text issue rest
    | .tooManyDigits count => .number (.tooManyDigits count)
    | .tooDeep nest => .tooDeep nest
  if text.head? == some (Char.ofNat 0xfeff) then .error (faultAt text .mark text)
  else match readValue (2 * s.length + 2) depthLimit (skipGap text) with
    | .error e => .error (fault e)
    | .ok (v, rest) =>
      match skipGap rest with
      | [] => .ok v
      | extra => .error (faultAt text .extra extra)

end ScoreWasm.Json
