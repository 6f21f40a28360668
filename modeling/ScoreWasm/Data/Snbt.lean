import ScoreWasm.Data.Outline
import ScoreWasm.Json.Quote
import ScoreWasm.Number.Read
import ScoreWasm.Number.Shortest

/-!
# Data as text

Compounds are written between braces and lists between brackets; a name or a string that consists
of plain characters may stand without quotes.  Reading knows three more things: integers with a
width suffix, numbers with a fraction or an exponent, and arrays of integers such as `[I;1,2]`.
-/

namespace ScoreWasm.Snbt

open Text

def isPlain (c : Char) : Bool :=
  c.isAlphanum || c == '_' || c == '-' || c == '.' || c == '+'

/-! ### Writing -/

def keyText (k : String) : String :=
  if !k.isEmpty && k.toList.all isPlain then k else Json.quote k

mutual

/-- The text of a value.  Truth values and nothing, which stored data never holds, are written as
messages show them. -/
def write : Json → String
  | .null => "None"
  | .bool b => if b then "True" else "False"
  | .int i => toString i
  | .float x => x.text
  | .str s => Json.quote s
  | .arr items => "[" ++ ",".intercalate (writeItems items) ++ "]"
  | .obj fields => "\x7b" ++ ",".intercalate (writeFields fields) ++ "\x7d"

def writeItems : List Json → List String
  | [] => []
  | v :: rest => write v :: writeItems rest

def writeFields : List (String × Json) → List String
  | [] => []
  | (k, v) :: rest => (keyText k ++ ":" ++ write v) :: writeFields rest

end

def depthLimit : Nat := 494

def write? (v : Json) : Option String := if v.depth ≤ depthLimit then some (write v) else none

def render (v : Nbt) : String := write v.outline

/-! ### Reading -/

inductive Issue where
  | unexpectedEnd
  | unexpectedCharacter
  | unterminatedString
  | expectedKey
  | expected (c : Char)
  | trailing
  deriving DecidableEq, Repr

inductive Failure where
  | at (issue : Issue) (pos : Nat)
  | ranOut
  | unclosedArray
  | number (f : Number.Fault)
  | tooDeep
  deriving DecidableEq, Repr

def Issue.text : Issue → String
  | .unexpectedEnd => "unexpected end"
  | .unexpectedCharacter => "unexpected character"
  | .unterminatedString => "unterminated string"
  | .expectedKey => "expected key"
  | .expected c => "expected " ++ quoted (String.ofList [c])
  | .trailing => "trailing characters"

structure Cursor where
  pos : Nat
  rest : List Char
  deriving Inhabited

def Cursor.skip (c : Cursor) : Cursor :=
  let blanks := c.rest.takeWhile isBlank
  ⟨c.pos + blanks.length, c.rest.drop blanks.length⟩

def Cursor.next (c : Cursor) : Cursor := ⟨c.pos + 1, c.rest.drop 1⟩

/-- An unsigned integer with at most one width letter after it. -/
def integerBody? (cs : List Char) : Option (List Char) :=
  let ds := cs.takeWhile Char.isDigit
  let rest := cs.drop ds.length
  if ds.isEmpty then none
  else match rest with
    | [] => some ds
    | [c] => if "bBsSlL".toList.contains c then some ds else none
    | _ => none

def exponentTail (cs : List Char) : List Char × List Char :=
  match cs with
  | e :: rest =>
    if e == 'e' || e == 'E' then
      let (sign, body) := match rest with
        | '+' :: more => (['+'], more)
        | '-' :: more => (['-'], more)
        | _ => ([], rest)
      let ds := body.takeWhile Char.isDigit
      if ds.isEmpty then ([], cs) else (e :: sign ++ ds, body.drop ds.length)
    else ([], cs)
  | [] => ([], [])

/-- An unsigned number with an optional fraction, exponent and precision letter. -/
def floatBody? (cs : List Char) : Option (List Char) :=
  let whole := cs.takeWhile Char.isDigit
  let rest := cs.drop whole.length
  let mantissa? : Option (List Char × List Char) := match rest with
    | '.' :: more =>
      let fraction := more.takeWhile Char.isDigit
      if whole.isEmpty && fraction.isEmpty then none
      else some (whole ++ '.' :: fraction, more.drop fraction.length)
    | _ => if whole.isEmpty then none else some (whole, rest)
  match mantissa? with
  | none => none
  | some (mantissa, rest) =>
    let (exponent, rest) := exponentTail rest
    match rest with
    | [] => some (mantissa ++ exponent)
    | [c] => if "fFdD".toList.contains c then some (mantissa ++ exponent) else none
    | _ => none

def scalar (token : List Char) : Except Failure Nbt :=
  let (neg, body) := Number.splitSign token
  match integerBody? body with
  | some ds =>
    if Number.digitLimit < ds.length then .error (.number (.tooManyDigits ds.length))
    else .ok (.int (Number.withSign neg (Number.digitsValue ds)))
  | none =>
    match (floatBody? body).bind (Number.readFloat neg) with
    | some x => .ok (.float x)
    | none =>
      let word := String.ofList token
      .ok (if word == "true" then .int 1 else if word == "false" then .int 0 else .str word)

/-- Reads a quoted string; the cursor stands after the opening quote.  A backslash stands for the
character after it.  Every step takes a character, so the number of characters is fuel enough. -/
def readQuoted (quote : Char) : Nat → String → Cursor → Except Failure (String × Cursor)
  | 0, _, c => .error (.at .unterminatedString c.pos)
  | fuel + 1, acc, ⟨pos, rest⟩ =>
    match rest with
    | [] => .error (.at .unterminatedString pos)
    | ch :: more =>
      if ch == '\\' then
        match more with
        | [] => .error .ranOut
        | e :: after => readQuoted quote fuel (acc.push e) ⟨pos + 2, after⟩
      else if ch == quote then .ok (acc, ⟨pos + 1, more⟩)
      else readQuoted quote fuel (acc.push ch) ⟨pos + 1, more⟩

def expect (ch : Char) (c : Cursor) : Except Failure Cursor :=
  let c := c.skip
  if c.rest.head? == some ch then .ok c.next else .error (.at (.expected ch) c.pos)

/-- Reads the numbers of an array: the text up to the bracket, separated by commas. -/
def arrayItems (body : List Char) : Except Failure (List Int) :=
  let trimmed := stripBy isBlank body
  if trimmed.isEmpty then .ok []
  else (cut (· == ',') trimmed).mapM (fun item =>
    let digits := stripRightBy (fun c => "bBlL".toList.contains c) (stripBy isBlank item)
    (Number.readInt (String.ofList digits)).mapError .number)

def isArrayHead : List Char → Bool
  | t :: ';' :: _ => t == 'I' || t == 'B' || t == 'L'
  | _ => false

def isQuote (c : Char) : Bool := c == '"' || c == apostrophe

def readKey (c : Cursor) : Except Failure (String × Cursor) :=
  match c.rest with
  | [] => .error .ranOut
  | ch :: _ =>
    if isQuote ch then readQuoted ch (c.rest.length + 1) "" c.next
    else
      let token := c.rest.takeWhile isPlain
      if token.isEmpty then .error (.at .expectedKey c.pos)
      else .ok (String.ofList token, ⟨c.pos + token.length, c.rest.drop token.length⟩)

mutual

/-- Reads a value, which may be nested to a depth.  Of two steps of the recursion at least one takes a
character, so twice their number is fuel enough. -/
def readValue : Nat → Nat → Cursor → Except Failure (Nbt × Cursor)
  | 0, _, c => .error (.at .unexpectedEnd c.pos)
  | fuel + 1, depth, c =>
    let c := c.skip
    match c.rest with
    | [] => .error (.at .unexpectedEnd c.pos)
    | ch :: _ =>
      if ch == Char.ofNat 123 then
        let c := c.next.skip
        match depth with
        | 0 => .error .tooDeep
        | depth + 1 =>
          if c.rest.head? == some (Char.ofNat 125) then .ok (.compound [], c.next)
          else readEntries fuel depth [] c
      else if ch == '[' then
        let c := c.next
        if isArrayHead c.rest then
          let body := c.rest.takeWhile (· != ']')
          let after := c.rest.drop body.length
          if after.isEmpty then .error .unclosedArray
          else (arrayItems (body.drop 2)).map
            (fun is => (Nbt.ints is, ⟨c.pos + body.length + 1, after.drop 1⟩))
        else
          let c := c.skip
          match depth with
          | 0 => .error .tooDeep
          | depth + 1 =>
            if c.rest.head? == some ']' then .ok (.list #[], c.next)
            else readItems fuel depth #[] c
      else if isQuote ch then
        (readQuoted ch (c.rest.length + 1) "" c.next).map (fun r => (.str r.1, r.2))
      else
        let token := c.rest.takeWhile isPlain
        if token.isEmpty then .error (.at .unexpectedCharacter c.pos)
        else (scalar token).map
          (fun v => (v, ⟨c.pos + token.length, c.rest.drop token.length⟩))

def readItems : Nat → Nat → Array Nbt → Cursor → Except Failure (Nbt × Cursor)
  | 0, _, _, c => .error (.at .unexpectedEnd c.pos)
  | fuel + 1, depth, done, c =>
    match readValue fuel depth c with
    | .error e => .error e
    | .ok (v, c) =>
      let c := c.skip
      if c.rest.head? == some ',' then readItems fuel depth (done.push v) c.next
      else (expect ']' c).map (fun c => (.list (done.push v), c))

def readEntries : Nat → Nat → List (String × Nbt) → Cursor → Except Failure (Nbt × Cursor)
  | 0, _, _, c => .error (.at .unexpectedEnd c.pos)
  | fuel + 1, depth, done, c =>
    match readKey c.skip with
    | .error e => .error e
    | .ok (k, c) =>
      match expect ':' c with
      | .error e => .error e
      | .ok c =>
        match readValue fuel depth c with
        | .error e => .error e
        | .ok (v, c) =>
          let entries := Nbt.setEntry k v done
          let c := c.skip
          if c.rest.head? == some ',' then readEntries fuel depth entries c.next
          else (expect (Char.ofNat 125) c).map (fun c => (.compound entries, c))

end

/-- A failure with its position in code points instead of characters. -/
def Failure.inCodes (s : String) : Failure → Failure
  | .at issue pos => .at issue (codesOf (s.toList.take pos)).length
  | f => f

def parse (s : String) : Except Failure Nbt :=
  match readValue (2 * s.length + 2) depthLimit ⟨0, s.toList⟩ with
  | .error e => .error (e.inCodes s)
  | .ok (v, c) =>
    let c := c.skip
    if c.rest.isEmpty then .ok v else .error ((Failure.at .trailing c.pos).inCodes s)

end ScoreWasm.Snbt
