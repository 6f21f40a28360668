import ScoreWasm.Number.Read

/-!
# Arguments of the command line

A word that starts with a hyphen names an option, by its full name, by the beginning of a name that no
other option has, or by its letter.  A value may be attached to it, as in `--jobs=2` and `-oDIR`, and
letters of options without values may be joined, as in `-vv`.  Negative numbers and words with blanks
are values, and after `--` everything is.  What is left over is the module to compile.
-/

namespace ScoreWasm.Cli

inductive Exit where
  | help
  | misuse
  deriving DecidableEq, Repr

def Exit.status : Exit → Nat
  | help => 0
  | misuse => 2

inductive Opt where
  | help | output | ns | budget | noBudget | maxDepth | jobs | comments | hosts | dumpCfg | graphviz
  | visualize | run | interpret | hash | diff | sign | verify | verbose
  deriving DecidableEq, Repr

inductive Arity where
  | flag | one | two | many
  deriving DecidableEq, Repr

namespace Opt

def all : List Opt :=
  [help, output, ns, budget, noBudget, maxDepth, jobs, comments, hosts, dumpCfg, graphviz, visualize,
   run, interpret, hash, diff, sign, verify, verbose]

def name : Opt → String
  | help => "--help"
  | output => "--output"
  | ns => "--namespace"
  | budget => "--budget"
  | noBudget => "--no-budget"
  | maxDepth => "--max-depth"
  | jobs => "--jobs"
  | comments => "--comments"
  | hosts => "--hosts"
  | dumpCfg => "--dump-cfg"
  | graphviz => "--graphviz"
  | visualize => "--visualize"
  | run => "--run"
  | interpret => "--interpret"
  | hash => "--hash"
  | diff => "--diff"
  | sign => "--sign"
  | verify => "--verify"
  | verbose => "--verbose"

def ofLetter? : Char → Option Opt
  | 'h' => some help
  | 'o' => some output
  | 'v' => some verbose
  | _ => none

def arity : Opt → Arity
  | help | noBudget | comments | dumpCfg | interpret | verbose => .flag
  | run => .many
  | diff => .two
  | _ => .one

end Opt

/-! ### Words -/

/-- What a word of the command line is.  A letter is told from a name since letters can be joined. -/
inductive Token where
  | option (o : Opt) (isLetter : Bool) (attached : Option String)
  | unknown
  | value (s : String)
  | divider
  deriving DecidableEq, Repr

def exactOption? (word : String) : Option (Opt × Bool) :=
  match word.toList with
  | ['-', c] => (Opt.ofLetter? c).map (fun o => (o, true))
  | _ => (Opt.all.find? (fun o => o.name == word)).map (fun o => (o, false))

def areDigits (cs : List Char) : Bool := !cs.isEmpty && cs.all (fun c => (Text.digitValue? c).isSome)

/-- Whether a word is a negative number, with a fraction or without.  A line feed at its end is not
looked at. -/
def isNegativeNumber (word : String) : Bool :=
  let cs := word.toList
  let cs := if cs.getLast? == some '\n' then cs.dropLast else cs
  match cs with
  | '-' :: rest =>
    let whole := rest.takeWhile (· != '.')
    match rest.drop whole.length with
    | [] => areDigits whole
    | _ :: fraction => (whole.isEmpty || areDigits whole) && areDigits fraction
  | _ => false

def meanings (word : String) : List Token :=
  match word.toList with
  | '-' :: '-' :: _ =>
    let (name, attached) := match Text.cutAt? "=" word with
      | some (name, v) => (name, some v)
      | none => (word, none)
    (Opt.all.filter (fun o => Text.startsWith name o.name)).map (fun o => .option o false attached)
  | '-' :: c :: rest =>
    match Opt.ofLetter? c with
    | some o => [.option o true (some (String.ofList rest))]
    | none => []
  | _ => []

def readWord (word : String) : Except Exit Token :=
  if word.isEmpty || word == "-" || !Text.startsWith "-" word then .ok (.value word)
  else if let some (o, isLetter) := exactOption? word then .ok (.option o isLetter none)
  else if let some (o, isLetter, v) := (do
      let (name, v) ← Text.cutAt? "=" word
      let (o, isLetter) ← exactOption? name
      pure (o, isLetter, v)) then .ok (.option o isLetter (some v))
  else match meanings word with
    | [token] => .ok token
    | _ :: _ => .error .misuse
    | [] => .ok (if isNegativeNumber word || word.toList.contains ' ' then .value word else .unknown)

def readWords : List String → Except Exit (List Token)
  | [] => .ok []
  | word :: rest =>
    if word == "--" then .ok (.divider :: rest.map .value)
    else do
      let token ← readWord word
      return token :: (← readWords rest)

/-! ### Arguments -/

/-- What the command line asks for.  The value of an option with one value is missing if a divider was
attached to it, as in `--hash=--`. -/
structure Arguments where
  input : Option String := none
  output : Option (Option String) := none
  ns : Option String := some "wasm"
  budget : Option Int := some 32
  noBudget : Bool := false
  maxDepth : Option Int := some 256
  jobs : Option Int := some 1
  comments : Bool := false
  hosts : Option (Option String) := none
  dumpCfg : Bool := false
  graphviz : Option (Option String) := none
  visualize : Option (Option String) := none
  run : Option (List String) := none
  interpret : Bool := false
  hash : Option (Option String) := none
  diff : Option (String × String) := none
  sign : Option (Option String) := none
  verify : Option (Option String) := none
  verbose : Nat := 0
  deriving DecidableEq, Repr

def number : Option String → Except Exit (Option Int)
  | none => .ok none
  | some s =>
    match Number.int? s with
    | some i => .ok (some i)
    | none => .error .misuse

def Arguments.set (a : Arguments) (o : Opt) (values : List String) : Except Exit Arguments := do
  let v := values.head?
  match o with
  | .help => throw .help
  | .output => return { a with output := some v }
  | .ns => return { a with ns := v }
  | .budget => return { a with budget := ← number v }
  | .noBudget => return { a with noBudget := true }
  | .maxDepth => return { a with maxDepth := ← number v }
  | .jobs => return { a with jobs := ← number v }
  | .comments => return { a with comments := true }
  | .hosts => return { a with hosts := some v }
  | .dumpCfg => return { a with dumpCfg := true }
  | .graphviz => return { a with graphviz := some v }
  | .visualize => return { a with visualize := some v }
  | .run => return { a with run := some values }
  | .interpret => return { a with interpret := true }
  | .hash => return { a with hash := some v }
  | .diff => return { a with diff := some (values.getD 0 "", values.getD 1 "") }
  | .sign => return { a with sign := some v }
  | .verify => return { a with verify := some v }
  | .verbose => return { a with verbose := a.verbose + 1 }

/-- Takes the letters of options without values from what is attached to a letter: the options before
the last one, the last one, and what is attached to that. -/
def joinedLetters (o : Opt) : List Char → Except Exit (List Opt × Opt × Option String)
  | [] => .ok ([], o, none)
  | c :: rest =>
    if o.arity == .flag then
      match Opt.ofLetter? c with
      | some next => do
        let (before, last, attached) ← joinedLetters next rest
        return (o :: before, last, attached)
      | none => .error .misuse
    else .ok ([], o, some (String.ofList (c :: rest)))

def leadingValues : List Token → List String
  | .value v :: rest => v :: leadingValues rest
  | _ => []

def following (o : Opt) (rest : List Token) : Except Exit (List String) :=
  let values := leadingValues rest
  match o.arity with
  | .flag => .ok []
  | .one => if values.isEmpty then .error .misuse else .ok (values.take 1)
  | .two => if values.length < 2 then .error .misuse else .ok (values.take 2)
  | .many => if values.isEmpty then .error .misuse else .ok values

/-- The value of an option that has one attached; a divider is none. -/
def attachedValue (o : Opt) (v : String) : Except Exit (List String) :=
  match o.arity with
  | .one | .many => .ok (if v == "--" then [] else [v])
  | _ => .error .misuse

structure Reading where
  arguments : Arguments
  taken : Bool
  leftOver : Bool

/-- An option with what is attached and the tokens after it: the arguments then, and how many of those
tokens were used. -/
def readOption (a : Arguments) (o : Opt) (isLetter : Bool) (attached : Option String)
    (rest : List Token) : Except Exit (Arguments × Nat) := do
  let (before, last, attached) ← match attached with
    | some v =>
      if isLetter && o.arity == .flag && !v.isEmpty then joinedLetters o v.toList
      else .ok ([], o, some v)
    | none => .ok ([], o, none)
  let values ← match attached with
    | some v => attachedValue last v
    | none => following last rest
  let a ← before.foldlM (fun a o => a.set o []) a
  return (← a.set last values, if attached.isSome then 0 else values.length)

def readTokens : List Token → Reading → Except Exit Reading
  | [], r => .ok r
  | .unknown :: rest, r => readTokens rest { r with leftOver := true }
  | .option o isLetter attached :: rest, r => do
    let (a, used) ← readOption r.arguments o isLetter attached rest
    readTokens (rest.drop used) { r with arguments := a }
  | .divider :: .value v :: rest, r =>
    if r.taken then readTokens rest { r with leftOver := true }
    else readTokens rest { r with arguments := { r.arguments with input := some v }, taken := true }
  | .divider :: rest, r => readTokens rest { r with taken := true, leftOver := r.leftOver || r.taken }
  | .value v :: rest, r =>
    if r.taken then readTokens rest { r with leftOver := true }
    else
      let r := { r with arguments := { r.arguments with input := some v }, taken := true }
      match rest with
      | .divider :: rest => readTokens rest r
      | rest => readTokens rest r
termination_by tokens => tokens.length
decreasing_by all_goals (simp only [List.length_cons, List.length_drop]; omega)

def Arguments.parse (words : List String) : Except Exit Arguments := do
  let r ← readTokens (← readWords words) ⟨{}, false, false⟩
  if r.leftOver then throw .misuse
  return r.arguments

end ScoreWasm.Cli
