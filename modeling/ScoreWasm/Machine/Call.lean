import ScoreWasm.Command.Outline
import ScoreWasm.Command.Register
import ScoreWasm.Json.Equal
import ScoreWasm.Machine.Run

/-!
# Calling exported functions

A call puts its arguments into argument registers, runs the function's wrapper and then ticks until
the program says that it is done.  The program's output is what was added to its output lists
meanwhile.
-/

namespace ScoreWasm.Machine

open Word

structure CallResult where
  results : List Int
  trap : Option String
  ticks : Nat
  exit : Option Int
  output : List Nbt
  text : List Int
  commands : Nat

def CallResult.outline (r : CallResult) : Json := .obj
  [("results", .arr (r.results.map .int)), ("trap", textOrNull r.trap), ("ticks", .int r.ticks),
   ("exit", intOrNull r.exit), ("output", .arr (r.output.map Nbt.outline)),
   ("text", .arr (r.text.map .int)), ("commands", .int r.commands)]

def argumentFault (type : String) : NoPattern → Fault
  | .tooLarge => .tooLarge
  | .integerExpected => .integerExpected type
  | .badNumber f => .number f
  | .notNumber => .wrongType

def writeArguments : Nat → List (String × Argument) → Run Unit
  | _, [] => return ()
  | i, (type, arg) :: rest => do
    match toBits type arg with
    | .error e => throw (argumentFault type e)
    | .ok bits =>
      let (lo, hi) := split64 bits
      writeScore (Reg.arg i).score lo
      if isWideName type then writeScore (Reg.arg i).high.score hi
      writeArguments (i + 1) rest

/-! ### Output

A program's output lies in two lists, one of values and one of characters.  Data that says nothing counts
as an empty list, and the characters of a string as items. -/

def outputData (p : Program) (key : String) : Run (Option Datum) :=
  return (← get).find? (p.namespaceName ++ ":io") [.key key]

def outputSize (p : Program) (key : String) : Run Nat := do
  match ← outputData p key with
  | none => return 0
  | some (.str s) => return Text.size s
  | some (.ref a) => return (((← get).heap.get? a).map Container.size).getD 0
  | some (.int i) => if i == 0 then return 0 else throw .wrongType
  | some (.float x) => if x.isZero then return 0 else throw .wrongType

def outputFrom (p : Program) (key : String) (start : Nat) : Run (List Datum) := do
  match ← outputData p key with
  | none => return []
  | some (.str s) => return ((Text.singles s).drop start).map .str
  | some (.ref a) =>
    match (← get).heap.get? a with
    | some (.list items) => return items.toList.drop start
    | some (.compound (_ :: _)) => throw .wrongType
    | _ => return []
  | some (.int i) => if i == 0 then return [] else throw .wrongType
  | some (.float x) => if x.isZero then return [] else throw .wrongType

/-- An entry of the output list: compounds hold the words of a number. -/
def outputValue (d : Datum) : Run Nbt := do
  match ← treeOf d with
  | .compound entries =>
    let lo := (Nbt.named? "lo" entries).getD (.int 0)
    match Nbt.named? "hi" entries with
    | none => return lo
    | some hi =>
      match lo, hi with
      | .int lo, .int hi => return .int (fromBits "i64" (joinWords lo hi))
      | _, _ => throw .wrongType
  | v => return v

def inCodeRange (x : Binary64) : Bool :=
  match x.floor with
  | .ok i => 0 ≤ i && i < 0x110000
  | .error _ => false

/-- The code points of the printed characters.  Numbers outside the range of code points are left out;
inside it only integers stand for characters. -/
def codePoints : List Datum → Run (List Int)
  | [] => return []
  | .int c :: rest => do
    let after ← codePoints rest
    return if 0 ≤ c && c < 0x110000 then c :: after else after
  | .float x :: rest => if inCodeRange x then throw .wrongType else codePoints rest
  | _ => throw .wrongType

/-! ### The manifest -/

/-- A part of a description, which must be an object that has it. -/
def part (name : String) : Json → Run Json
  | .obj fields =>
    match Nbt.named? name fields with
    | some v => return v
    | none => throw (.missingKey name)
  | _ => throw .wrongType

def exportInfo (p : Program) (name : String) : Run Json :=
  tryCatch (do part name (← part "exports" p.manifest))
    (fun f => throw (match f with | .missingKey _ => .noExport name | _ => f))

/-- The types in a description by their names; a text counts as its characters, an object as the names of
its fields. -/
def typeNames : Json → Run (List String)
  | .arr items => return items.map (fun v => v.str?.getD v.literal)
  | .str s => return Text.singles s
  | .obj fields => return fields.map Prod.fst
  | _ => throw .wrongType

/-- The kind of trap that a code stands for; the last kind with the code counts. -/
def trapKind (traps : List (String × Json)) (code : Int) : Option String :=
  (traps.reverse.find? (fun t => t.2.equals (.int code))).map Prod.fst

/-- The kinds of traps with their codes, which must not be arrays or objects. -/
def trapKinds (p : Program) : Run (List (String × Json)) := do
  match ← part "traps" p.manifest with
  | .obj fields =>
    if fields.any (fun f => f.2.arr?.isSome || f.2.obj?.isSome) then throw .wrongType
    else return fields
  | _ => throw .noAttribute

/-! ### Calls -/

/-- Ticks until the program is done, for a number of ticks at most; gives the ticks taken. -/
def finish (p : Program) (entryPoint : String) (maxTicks : Int) : Nat → Nat → Run Nat
  | fuel, ticks => do
    let w ← get
    if w.scores.get? (Reg.score "%done") == some 1 then return ticks
    if w.scheduled.isEmpty then throw (.stopped entryPoint)
    match fuel with
    | 0 => throw (.notFinished entryPoint maxTicks)
    | fuel + 1 => do
      tick p
      finish p entryPoint maxTicks fuel (ticks + 1)

def readResult (i : Nat) (type : String) : Run Int := do
  let w ← get
  let lo := w.scores.get? (Reg.result i).score
  let hi := if isWideName type then w.scores.get? (Reg.result i).high.score else some 0
  match lo, hi with
  | some lo, some hi => return fromBits type (joinWords lo hi)
  | _, _ => throw .wrongType

def readResults : Nat → List String → Run (List Int)
  | _, [] => return []
  | i, type :: rest => do
    let v ← readResult i type
    return v :: (← readResults (i + 1) rest)

def call (p : Program) (name : String) (args : List Argument) (maxTicks : Int) : Run CallResult := do
  let info ← exportInfo p name
  let params ← typeNames (← part "params" info)
  if args.length != params.length then throw (.argumentCount name params.length args.length)
  writeArguments 0 (params.zip args)
  let exitName := p.namespaceName ++ ":rt/exit"
  let outBefore ← outputSize p "out"
  let charsBefore ← outputSize p "chars"
  let before ← get
  let exitsBefore := before.timesEntered exitName
  let commandsBefore := before.commands
  discard (runNamed p (← part "function" info) none)
  let ticks ← finish p name maxTicks maxTicks.toNat 0
  let traps ← trapKinds p
  let w ← get
  let trap := match w.scores.get? (Reg.score "%trap") with
    | some code => if code == 0 then none else trapKind traps code
    | none => none
  let exited := exitsBefore < w.timesEntered exitName
  let results ← if trap.isNone && !exited then do
      readResults 0 (← typeNames (← part "results" info))
    else pure []
  let output ← (← outputFrom p "out" outBefore).mapM outputValue
  let text ← codePoints (← outputFrom p "chars" charsBefore)
  return {
    results := results
    trap := trap
    ticks := ticks
    exit := if exited then w.scores.get? (Reg.score "%exit") else none
    output := output
    text := text
    commands := w.commands - commandsBefore }

/-! ### Linear memory -/

/-- The item at a position of data: of a list or a string, negative positions counting from the end.  A
compound has no items under numbers. -/
def itemAt (i : Int) : Datum → Run Datum
  | .ref a => do
    match (← get).heap.get? a with
    | some (.list items) =>
      match (position? items.size i).bind (items[·]?) with
      | some d => return d
      | none => throw .outOfRange
    | _ => throw (.missingKey (toString i))
  | .str s =>
    match elementAt? (Text.singles s) i with
    | some piece => return .str piece
    | none => throw .outOfRange
  | _ => throw .wrongType

/-- One byte of linear memory: the words of a page hold four bytes each, the lowest first. -/
def readByte (pages : Datum) (address : Int) : Run UInt8 := do
  let word := address.fdiv 4
  let page ← itemAt (word.fdiv 16384) pages
  match ← itemAt (word.fmod 16384) page with
  | .int v => return UInt8.ofNat (v.emod (2 ^ 32) / 2 ^ (8 * (address.fmod 4).toNat)).toNat
  | _ => throw .wrongType

def saysNothing : Datum → Run Bool
  | .int i => return i == 0
  | .float x => return x.isZero
  | .str s => return s.isEmpty
  | .ref a => return (((← get).heap.get? a).map Container.size).getD 0 == 0

/-- A number of bytes of linear memory from an address on, after those read before in reverse. -/
def readBytes (pages : Datum) : Nat → Int → List UInt8 → Run (List UInt8)
  | 0, _, done => return done.reverse
  | count + 1, address, done => do
    let b ← readByte pages address
    readBytes pages count (address + 1) (b :: done)

/-- Bytes of linear memory as they are stored; a memory that says nothing has none. -/
def readMemory (p : Program) (address length : Int) : Run (List UInt8) := do
  if length ≤ 0 then return []
  match (← get).find? (p.namespaceName ++ ":memory") [.key "pages"] with
  | none => throw .outOfRange
  | some pages =>
    if ← saysNothing pages then throw .outOfRange
    else readBytes pages length.toNat address []

end ScoreWasm.Machine
