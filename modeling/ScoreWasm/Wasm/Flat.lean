import ScoreWasm.Number.Read
import ScoreWasm.Wasm.Instr

/-!
# Instructions as text

One instruction per line with its immediates after the name, and comments after `;;`.  Labels,
indices and constants are numbers with an optional base mark; a floating-point constant is a decimal
or a bit pattern; alignments are written in bytes.
-/

namespace ScoreWasm.Wasm.Flat

open Text Ieee

/-- Why a line is no instruction.  The last three have no wording of their own. -/
inductive Fault where
  | unknownInstruction (op : String)
  | takesNone (op : String)
  | badBlockType (arg : String)
  | badMemoryArgument (arg : String)
  | missing
  | badNumber
  | tooLarge
  deriving DecidableEq, Repr

def Fault.message? : Fault → Option String
  | unknownInstruction op => some ("unknown instruction " ++ quoted op)
  | takesNone op => some (op ++ " takes no immediates")
  | badBlockType arg => some ("invalid block type " ++ quoted arg)
  | badMemoryArgument arg => some ("invalid memory argument " ++ quoted arg)
  | missing => none
  | badNumber => none
  | tooLarge => none

/-! ### Reading -/

/-- An integer; underscores count for nothing. -/
def integer (token : String) : Except Fault Int :=
  match Number.markedInt? (String.ofList (token.toList.filter (· != '_'))) with
  | some i => .ok i
  | none => .error .badNumber

def firstOf (args : List String) : Except Fault String :=
  match args with
  | a :: _ => .ok a
  | [] => .error .missing

/-- The two sides of a named argument such as `offset=8`. -/
def keyword? (arg : String) : Option (String × String) :=
  match cutAt? "=" arg with
  | some (name, v) =>
    if (name == "offset" || name == "align" || name == "type") && !v.isEmpty then some (name, v)
    else none
  | none => none

def blockType (args : List String) : Except Fault BlockType :=
  match args with
  | [] => .ok .empty
  | a :: _ =>
    match ValType.named? a with
    | some t => .ok (.value t)
    | none =>
      match keyword? a with
      | some ("type", v) => (integer v).map .index
      | _ => .error (.badBlockType a)

/-- The exponent of the largest power of two not above the size of a number; −1 for zero. -/
def exponent (i : Int) : Int :=
  if i == 0 then -1 else i.natAbs.log2

/-- Offset and alignment, in any order; the last of each counts. -/
def memArg (natural : Nat) (args : List String) : Except Fault MemArg := do
  let (align, offset) ← args.foldlM (fun (align, offset) arg => do
    match keyword? arg with
    | some ("offset", v) => return (align, ← integer v)
    | some (_, v) => return (← integer v, offset)
    | none => throw (.badMemoryArgument arg)) ((natural : Int), (0 : Int))
  return ⟨exponent align, offset⟩

def floatBits (t : ValType) (token : String) : Except Fault Int :=
  if startsWith "bits:" token then integer (drop 5 token)
  else match Number.float? token with
    | none => .error .badNumber
    | some x =>
      if t == .f64 then .ok x.bits.toNat
      else match binary64.convert? binary32 x.bits.toNat with
        | some bits => .ok bits
        | none => .error .tooLarge

/-- A constant of a type; integers wrap to the width. -/
def constant (t : ValType) (token : String) : Except Fault Int :=
  match t with
  | .i32 => (integer token).map (·.bmod (2 ^ 32))
  | .i64 => (integer token).map (·.bmod (2 ^ 64))
  | t => floatBits t token

def tableLabels (args : List String) : Except Fault Instr := do
  let labels ← args.mapM integer
  match labels.reverse with
  | d :: rest => return .brTable rest.reverse d
  | [] => throw .missing

def plain (i : Instr) (args : List String) : Except Fault Instr :=
  if args.isEmpty then .ok i else .error (.takesNone i.name)

def operands (o : Opcode) (args : List String) : Except Fault Instr :=
  match o with
  | .unreachable => plain (.unreachable none) args
  | .nop => plain .nop args
  | .block => (blockType args).map .block
  | .loop => (blockType args).map .loop
  | .if_ => (blockType args).map .if_
  | .else_ => plain .else_ args
  | .end_ => plain .end_ args
  | .br => do return .br (← integer (← firstOf args))
  | .brIf => do return .brIf (← integer (← firstOf args))
  | .brTable => tableLabels args
  | .ret => plain .ret args
  | .call => do return .call (← integer (← firstOf args))
  | .callIndirect => do
    let type ← integer (← firstOf args)
    let table ← match args with
      | _ :: t :: _ => integer t
      | _ => pure 0
    return .callIndirect type table
  | .drop => plain .drop args
  | .select | .selectTyped =>
    if args.isEmpty then .ok (.select none)
    else .ok (.select (some (args.map ValType.ofName)))
  | .localGet => do return .localGet (← integer (← firstOf args))
  | .localSet => do return .localSet (← integer (← firstOf args))
  | .localTee => do return .localTee (← integer (← firstOf args))
  | .globalGet => do return .globalGet (← integer (← firstOf args))
  | .globalSet => do return .globalSet (← integer (← firstOf args))
  | .load op => (memArg op.size args).map (.load op)
  | .store op => (memArg op.size args).map (.store op)
  | .memorySize => plain .memorySize args
  | .memoryGrow => plain .memoryGrow args
  | .const t => do return .const t (← constant t (← firstOf args))
  | .num op => plain (.num op) args

def parseWords (op : String) (args : List String) : Except Fault Instr :=
  match Opcode.named? op with
  | some o => operands o args
  | none => .error (.unknownInstruction op)

def lineWords (line : String) : List String := words (before ";;" line)

/-- The instruction of a line, if there is one. -/
def parseLine (line : String) : Except Fault (Option Instr) :=
  match lineWords line with
  | [] => .ok none
  | op :: args => (parseWords op args).map some

def parse (text : String) : Except Fault (List Instr) := (lines text).filterMapM parseLine

/-! ### Writing -/

def patternText (i : Int) : String :=
  "bits:0x" ++ (if i < 0 then "-" else "") ++ String.ofList (Nat.toDigits 16 i.natAbs)

def blockText : BlockType → String
  | .empty => ""
  | .value t => " " ++ t.name
  | .index i => " type=" ++ toString i

/-- Offset and alignment where they are not the usual ones; `none` if the alignment is no number of
bytes. -/
def memText? (natural : Nat) (arg : MemArg) : Option String :=
  match arg.align with
  | .negSucc _ => none
  | .ofNat e =>
    some ((if arg.offset == 0 then "" else " offset=" ++ toString arg.offset)
      ++ (if e == natural.log2 then "" else " align=" ++ toString (2 ^ e)))

/-- The text of an instruction; `none` if its alignment is no number of bytes. -/
def render? (i : Instr) : Option String :=
  let withIndex (n : Int) := some (i.name ++ " " ++ toString n)
  match i with
  | .block t => some (i.name ++ blockText t)
  | .loop t => some (i.name ++ blockText t)
  | .if_ t => some (i.name ++ blockText t)
  | .br n => withIndex n
  | .brIf n => withIndex n
  | .brTable labels d => some (join " " (i.name :: (labels ++ [d]).map toString))
  | .call n => withIndex n
  | .callIndirect type table =>
    some (i.name ++ " " ++ toString type ++ if table == 0 then "" else " " ++ toString table)
  | .select (some types) => some (join " " (i.name :: types.map ValType.name))
  | .localGet n => withIndex n
  | .localSet n => withIndex n
  | .localTee n => withIndex n
  | .globalGet n => withIndex n
  | .globalSet n => withIndex n
  | .load op arg => (memText? op.size arg).map (i.name ++ ·)
  | .store op arg => (memText? op.size arg).map (i.name ++ ·)
  | .const t v =>
    some (i.name ++ " " ++ match t with
      | .i32 => toString v
      | .i64 => toString v
      | _ => patternText v)
  | _ => some i.name

def renderLines (indent : String) : Nat → List Instr → Option (List String)
  | _, [] => some []
  | depth, i :: rest => do
    let outer := if i == .end_ || i == .else_ then depth - 1 else depth
    let line ← render? i
    let inner := if i.opensBlock || i == .else_ then outer + 1 else outer
    let more ← renderLines indent inner rest
    return (String.join (List.replicate outer indent) ++ line) :: more

def render (indent : String) (instrs : List Instr) : Option String :=
  (renderLines indent 0 instrs).map (join "\n")

end ScoreWasm.Wasm.Flat
