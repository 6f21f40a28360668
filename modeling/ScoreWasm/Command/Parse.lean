import ScoreWasm.Command.Basic
import ScoreWasm.Command.Fault

/-!
# Reading commands

A line is cut into words at single blanks.  The words are checked from left to right, so of two
faults the earlier one is reported.
-/

namespace ScoreWasm

open Text

/-! ### Words -/

def parseInt (token : String) : Except CommandFault Int :=
  match Number.int? token with
  | some i => .ok i
  | none => .error (.notInteger token)

def parseFloat (token : String) : Except CommandFault Binary64 :=
  match Number.float? token with
  | some x => .ok x
  | none => .error (.number (.noFloat token))

/-- Reads a range: two optional bounds around two points, or one number. -/
def parseRange (text : String) : Except CommandFault Range :=
  match cutAt? ".." text with
  | some (lo, hi) => do
    let lo ← if lo.isEmpty then pure none else some <$> parseInt lo
    let hi ← if hi.isEmpty then pure none else some <$> parseInt hi
    return ⟨lo, hi⟩
  | none => do
    let i ← parseInt text
    return .exactly i

def parseData (text : String) : Except CommandFault Nbt :=
  match Snbt.parse text with
  | .ok v => .ok v
  | .error (.at issue pos) => .error (.data issue pos text)
  | .error .ranOut => .error .missingWord
  | .error .unclosedArray => .error .unclosedArray
  | .error (.number f) => .error (.number f)
  | .error .tooDeep => .error .tooDeep

/-! ### Paths -/

def isPathChar (c : Char) : Bool :=
  c.isAlphanum || c == '_' || c == '-' || c == '+'

/-- The end of a quoted name: the characters up to an unescaped quote, and those after it. -/
def quotedName : List Char → List Char → Option (List Char × List Char)
  | _, [] => none
  | acc, '\\' :: c :: rest => if c == '\n' then none else quotedName (c :: '\\' :: acc) rest
  | acc, c :: rest =>
    if c == '"' then some (acc.reverse, rest)
    else if c == '\\' then none
    else quotedName (c :: acc) rest

/-- The digits of an index in brackets with its sign, the opening bracket taken, and what follows the
closing one. -/
def indexDigits? (cs : List Char) : Option (Bool × List Char × List Char) :=
  let (neg, body) := match cs with
    | '-' :: more => (true, more)
    | _ => (false, cs)
  let digits := body.takeWhile (fun c => (digitValue? c).isSome)
  match body.drop digits.length with
  | ']' :: rest => if digits.isEmpty then none else some (neg, Number.plainDigits digits, rest)
  | _ => none

def nameStep? (cs : List Char) : Option (PathStep × List Char) :=
  match cs with
  | '"' :: more => (quotedName [] more).map (fun r => (.key (String.ofList r.1), r.2))
  | _ =>
    let name := cs.takeWhile isPathChar
    if name.isEmpty then none else some (.key (String.ofList name), cs.drop name.length)

/-- The first step of a path, if there is one; its index may have too many digits. -/
def pathStep? (cs : List Char) : Except CommandFault (Option (PathStep × List Char)) :=
  match cs with
  | '[' :: rest =>
    match indexDigits? rest with
    | none => .ok none
    | some (neg, digits, rest) =>
      if Number.digitLimit < digits.length then .error (.number (.tooManyDigits digits.length))
      else .ok (some (.index (Number.withSign neg (Number.digitsValue digits)), rest))
  | '.' :: rest => .ok (nameStep? rest)
  | _ => .ok (nameStep? cs)

/-- The steps of a path; each takes at least one character. -/
def pathSteps (text : String) : Nat → List PathStep → List Char → Except CommandFault Path
  | _, acc, [] => .ok acc.reverse
  | 0, _, _ :: _ => .error (.badPath text)
  | fuel + 1, acc, cs =>
    match pathStep? cs with
    | .ok (some (step, rest)) => pathSteps text fuel (step :: acc) rest
    | .ok none => .error (.badPath text)
    | .error f => .error f

def parsePath (text : String) : Except CommandFault Path :=
  match pathSteps text text.length [] text.toList with
  | .ok [] => .error .emptyPath
  | result => result

/-! ### Parts of commands -/

def ticksPerUnit? (unit : Char) : Option Int :=
  if unit == 't' then some 1
  else if unit == 's' then some 20
  else if unit == 'd' then some 24000
  else none

def parseTicks (text : String) : Except CommandFault Int :=
  match text.toList.reverse with
  | [] => .error .missingWord
  | unit :: rest =>
    match ticksPerUnit? unit with
    | none => parseInt text
    | some n => do
      let amount ← parseFloat (String.ofList rest.reverse)
      let factor := (Binary64.ofInt? n).getD Binary64.one
      match (amount.mul factor).trunc with
      | .ok t => return t
      | .error .infinite => throw .tooLarge
      | .error .notANumber => throw (.number .notANumber)

/-- A block's full name: without a namespace it is the game's own. -/
def blockId (name : String) : String :=
  if name.toList.contains ':' then name else "minecraft:" ++ name

def ScoreOp.ofSign (sign : String) : ScoreOp :=
  if sign == "=" then .assign
  else if sign == "+=" then .add
  else if sign == "-=" then .sub
  else if sign == "*=" then .mul
  else if sign == "/=" then .div
  else if sign == "%=" then .mod
  else if sign == "<" then .min
  else if sign == ">" then .max
  else if sign == "><" then .swap
  else .other sign

def Comparison.ofSign (sign : String) : Comparison :=
  if sign == "<" then .lt
  else if sign == "<=" then .le
  else if sign == "=" then .eq
  else if sign == ">" then .gt
  else if sign == ">=" then .ge
  else .other sign

def StoreKind.ofName (name : String) : StoreKind :=
  if name == "byte" then .byte
  else if name == "short" then .short
  else if name == "int" then .int
  else if name == "long" then .long
  else .other name

def sentence (words : List String) : String := Text.join " " words

def parseScoreboard (line : String) (words : List String) : Except CommandFault Command :=
  let unsupported := .error (.unsupported line)
  match words with
  | [] => .error .missingWord
  | "objectives" :: [] => .error .missingWord
  | "objectives" :: "add" :: name :: _ :: _ => .ok (.addObjective name)
  | "players" :: [] => .error .missingWord
  | ["players", "set", holder, objective, value] =>
    (parseInt value).map (.setScore ⟨holder, objective⟩)
  | ["players", "add", holder, objective, value] =>
    (parseInt value).map (.addScore ⟨holder, objective⟩)
  | ["players", "remove", holder, objective, value] =>
    (parseInt value).map (fun v => .addScore ⟨holder, objective⟩ (-v))
  | ["players", "get", holder, objective] => .ok (.getScore ⟨holder, objective⟩)
  | ["players", "reset", holder] => .ok (.resetScore holder none)
  | ["players", "reset", holder, objective] => .ok (.resetScore holder (some objective))
  | ["players", "operation", target, targetObjective, sign, source, sourceObjective] =>
    .ok (.operate ⟨target, targetObjective⟩ (.ofSign sign) ⟨source, sourceObjective⟩)
  | _ => unsupported

def parseFunction (line : String) (words : List String) : Except CommandFault Command :=
  match words with
  | [] => .error .missingWord
  | [name] => .ok (.function name none)
  | name :: second :: rest =>
    if second == "with" && rest.isEmpty then .error .missingWord
    else match rest with
      | ["storage", id, path] =>
        if second == "with" then (parsePath path).map (fun p => .function name (some (.storage id p)))
        else inline name second rest
      | _ => inline name second rest
where
  inline (name second : String) (rest : List String) : Except CommandFault Command :=
    if startsWith "\x7b" second then
      match parseData (sentence (second :: rest)) with
      | .ok (.compound entries) => .ok (.function name (some (.inline entries)))
      | .ok _ => .error (.unsupported line)
      | .error e => .error e
    else .error (.unsupported line)

def parseSource (line text : String) : Except CommandFault Source :=
  if startsWith "value " text then (parseData (Text.drop 6 text)).map .value
  else match splitOn ' ' text with
    | ["from"] => .error .missingWord
    | ["from", "storage", id, path] => (parsePath path).map (.place id)
    | _ => .error (.unsupported line)

def parseDataCommand (line : String) (words : List String) : Except CommandFault Command :=
  match words with
  | [] => .error .missingWord
  | [_] => .error .missingWord
  | action :: target :: rest =>
    if target != "storage" then .error (.notStorage line)
    else match rest with
      | [] => .error .missingWord
      | storage :: rest =>
        if action == "get" then
          match rest with
          | [] => .error .missingWord
          | [path] => (parsePath path).map (fun p => .getData storage p Binary64.one)
          | path :: scale :: _ => do
            let x ← parseFloat scale
            let p ← parsePath path
            return .getData storage p x
        else match rest with
          | [path] =>
            if action == "remove" then (parsePath path).map (.removeData storage)
            else .error (.unsupported line)
          | path :: mode :: first :: more =>
            if action == "modify" && (mode == "set" || mode == "append") then do
              let p ← parsePath path
              let source ← parseSource line (sentence (first :: more))
              return if mode == "set" then .setData storage p source else .appendData storage p source
            else .error (.unsupported line)
          | _ => .error (.unsupported line)

def parseTest (line : String) (words : List String) : Except CommandFault (Test × List String) :=
  match words with
  | [] => .error .missingWord
  | "score" :: rest =>
    match rest with
    | holder :: objective :: "matches" :: range :: rest =>
      (parseRange range).map (fun r => (.within ⟨holder, objective⟩ r, rest))
    | [_, _, "matches"] => .error .missingWord
    | a :: aObjective :: sign :: b :: bObjective :: rest =>
      .ok (.compare ⟨a, aObjective⟩ (.ofSign sign) ⟨b, bObjective⟩, rest)
    | _ => .error .missingWord
  | "block" :: rest =>
    match rest with
    | x :: y :: z :: rest => do
      let pos := BlockPos.mk (← parseInt x) (← parseInt y) (← parseInt z)
      match rest with
      | id :: rest => return (.block pos (blockId id), rest)
      | [] => throw .missingWord
    | short => do
      for word in short do
        discard (parseInt word)
      throw .missingWord
  | "data" :: [] => .error .missingWord
  | "data" :: "storage" :: rest =>
    match rest with
    | id :: path :: rest => (parsePath path).map (fun p => (.data id p, rest))
    | _ => .error .missingWord
  | _ => .error (.condition line)

def parseStore (line : String) (words : List String) : Except CommandFault (Store × List String) :=
  match words with
  | [] => .error .missingWord
  | mode :: rest =>
    if mode != "result" && mode != "success" then .error (.storeMode mode)
    else
      let mode : StoreMode := if mode == "result" then .result else .success
      match rest with
      | [] => .error .missingWord
      | "score" :: holder :: objective :: rest => .ok (⟨mode, .score ⟨holder, objective⟩⟩, rest)
      | "score" :: _ => .error .missingWord
      | "storage" :: id :: path :: rest => do
        let p ← parsePath path
        match rest with
        | kind :: scale :: rest => do
          let x ← parseFloat scale
          return (⟨mode, .data id p (.ofName kind) x⟩, rest)
        | _ => throw .missingWord
      | "storage" :: _ => .error .missingWord
      | _ => .error (.storeTarget line)

/-- The clauses of an `execute` command and the words of its body, if it has one.  Every clause takes
at least one word. -/
def parseClauses (line : String) :
    Nat → List Clause → List String → Except CommandFault (List Clause × Option (List String))
  | _, done, [] => .ok (done.reverse, none)
  | 0, done, _ :: _ => .ok (done.reverse, none)
  | fuel + 1, done, word :: rest =>
    if word == "run" then .ok (done.reverse, some rest)
    else if word == "if" || word == "unless" then do
      let (t, rest) ← parseTest line rest
      parseClauses line fuel ((if word == "if" then .holds t else .fails t) :: done) rest
    else if word == "store" then do
      let (s, rest) ← parseStore line rest
      parseClauses line fuel (.store s :: done) rest
    else .error (.subcommand word)

def parseCorner (x y z : String) : Except CommandFault BlockPos := do
  return ⟨← parseInt x, ← parseInt y, ← parseInt z⟩

def parseSimple (line : String) (words : List String) : Except CommandFault Command :=
  match words with
  | "scoreboard" :: rest => parseScoreboard line rest
  | "function" :: rest => parseFunction line rest
  | ["return", value] =>
    if value == "fail" then .ok (.ret none) else (parseInt value).map (fun i => .ret (some i))
  | "data" :: rest => parseDataCommand line rest
  | ["schedule"] => .error .missingWord
  | "schedule" :: "function" :: name :: time :: rest => do
    let ticks ← parseTicks time
    return .schedule name ticks (rest.head?.getD "replace")
  | ["schedule", "clear", name] => .ok (.unschedule name)
  | "tellraw" :: rest =>
    match rest with
    | _ :: first :: more =>
      match Json.parse (sentence (first :: more)) with
      | .ok component => .ok (.tell component)
      | .error f => .error (.json f)
    | _ => .error .missingWord
  | "say" :: _ => .ok (.tell (.str (Text.drop 4 line)))
  | ["random", verb, range] =>
    if verb == "value" || verb == "roll" then (parseRange range).map .random
    else .error (.unsupported line)
  | "setblock" :: x :: y :: z :: id :: _ => do
    return .setBlock (← parseCorner x y z) (blockId id)
  | ["fill", ax, ay, az, bx, by_, bz, id] => do
    let a ← parseCorner ax ay az
    let b ← parseCorner bx by_ bz
    return .fill a b (blockId id)
  | "clone" :: ax :: ay :: az :: bx :: by_ :: bz :: dx :: dy :: dz :: rest =>
    if 1 < rest.length then .error (.unsupported line)
    else do
      let a ← parseCorner ax ay az
      let b ← parseCorner bx by_ bz
      let dest ← parseCorner dx dy dz
      match rest.head?.getD "replace" with
      | "replace" => return .clone a b dest .replace
      | "masked" => return .clone a b dest .masked
      | _ => throw (.unsupported line)
  | _ => .error (.unsupported line)

/-- How deep commands may be nested, when a body of `execute` counts twice. -/
def nestingLimit : Nat := 988

/-- Reads a command from its words, whose bodies may be nested to a depth.  A body takes fewer words than
the command around it. -/
def parseWords : Nat → Nat → List String → Except CommandFault Command
  | 0, _, words => .error (.unsupported (sentence words))
  | fuel + 1, depth, words =>
    let line := sentence words
    match words with
    | "execute" :: rest => do
      match ← parseClauses line rest.length [] rest with
      | (clauses, none) => return .check clauses
      | (clauses, some body) =>
        if depth < 2 then throw .tooDeep
        return .execute clauses (← parseWords fuel (depth - 2) body)
    | "return" :: "run" :: first :: more => do
      if depth < 1 then throw .tooDeep
      return .retRun (← parseWords fuel (depth - 1) (first :: more))
    | _ => parseSimple line words

def parseCommand (line : String) : Except CommandFault Command :=
  let words := splitOn ' ' line
  parseWords (words.length + 1) nestingLimit words

end ScoreWasm
