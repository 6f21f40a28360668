import ScoreWasm.SoftFloat.Arithmetic
import ScoreWasm.SoftFloat.Conversion
import ScoreWasm.SoftFloat.Integral
import ScoreWasm.SoftFloat.Pack
import ScoreWasm.Wasm.Build
import ScoreWasm.Wasm.Validate

/-!
# Lowering of floating-point operators

Every operator that works on floating-point numbers as numbers is replaced by a call of a routine,
in a few cases after an operator that prepares its operand.  The routines that are needed, and those
that they call, are added to the module.  Operators that only look at bit patterns stay.
-/

namespace ScoreWasm.SoftFloat

open Wasm

/-- The number of variables of a routine besides its parameters. -/
def Routine.localCount : Routine → Nat
  | shiftRightJam => 0
  | mulHighJam => 8
  | pack _ => 2
  | add .x64 => 10
  | mul .x64 => 10
  | div .x64 => 12
  | sqrt .x64 => 9
  | round _ _ => 6
  | promote => 4
  | demote => 4
  | fromInt _ => 1
  | convert _ true => 1
  | convert _ false => 0
  | truncate _ _ => 5
  | _ => 0

def Routine.code : Routine → Code
  | shiftRightJam => shiftRightJamCode
  | mulHighJam => mulHighJamCode
  | pack w => packCode w
  | add .x64 => addCode
  | mul .x64 => mulCode
  | div .x64 => divCode
  | sqrt .x64 => sqrtCode
  | add .x32 => singleBinary (.add .x64)
  | mul .x32 => singleBinary (.mul .x64)
  | div .x32 => singleBinary (.div .x64)
  | sqrt .x32 => singleUnary (.sqrt .x64)
  | round w mode => integralCode w mode
  | promote => promoteCode
  | demote => demoteCode
  | fromInt w => fromIntCode w
  | convert w signed => convertCode w signed
  | truncate dst signed => truncateCode dst signed

def Routine.callees (r : Routine) : List Routine :=
  r.code.callees.mergeSort (fun a b => decide (a.name ≤ b.name))

def replacement? : NumOp → Option (List Op)
  | .floatBin w .add => some [.call (.add w)]
  | .floatBin w .sub => some [.plain (.num (.floatUn w .neg)), .call (.add w)]
  | .floatBin w .mul => some [.call (.mul w)]
  | .floatBin w .div => some [.call (.div w)]
  | .floatUn w .sqrt => some [.call (.sqrt w)]
  | .floatUn w .ceil => some [.call (.round w .ceil)]
  | .floatUn w .floor => some [.call (.round w .floor)]
  | .floatUn w .trunc => some [.call (.round w .trunc)]
  | .floatUn w .nearest => some [.call (.round w .nearest)]
  | .convert w .x32 signed => some [.plain (.num (.extend signed)), .call (.convert w true)]
  | .convert w .x64 signed => some [.call (.convert w signed)]
  | .promote => some [.call .promote]
  | .demote => some [.call .demote]
  | .truncate dst .x64 signed => some [.call (.truncate dst signed)]
  | .truncate dst .x32 signed => some [.call .promote, .call (.truncate dst signed)]
  | _ => none

def replaced? : Instr → Option (List Op)
  | .num op => replacement? op
  | _ => none

/-- One step of collecting routines, from the last to the first: a routine is needed if it is asked
for or if a routine after it calls it. -/
def requireStep (asked : List Routine) (r : Routine) (needed : List Routine) : List Routine :=
  if asked.contains r || needed.any (fun n => n.code.callees.contains r) then r :: needed
  else needed

/-- The routines asked for and all that they call, in the order of `Routine.all`. -/
def required (asked : List Routine) : List Routine := Routine.all.foldr (requireStep asked) []

def routinesOf (ops : List NumOp) : List Routine :=
  ops.flatMap (fun op => (Code.mk ((replacement? op).getD [])).callees)

def softOps (f : Function) : List NumOp :=
  f.body.filterMap (fun p => match p.instr with
    | .num op => if (replacement? op).isSome then some op else none
    | _ => none)

/-- A body with its operators replaced, given the indices of the routines. -/
def lowerBody (index : Routine → Nat) (body : List Placed) : List Placed :=
  body.flatMap (fun p => match replaced? p.instr with
    | none => [p]
    | some ops => ops.map (fun o => match o with
      | .plain i => ⟨i, p.offset⟩
      | .call r => ⟨.call (index r), p.offset⟩))

def addRoutine (index : Routine → Nat) (m : Module) (r : Routine) : Module :=
  let (m, type) := m.internType r.type
  let f : Function :=
    ⟨type, List.replicate r.localCount .i64, (r.code.instrs index).map Placed.new, 0⟩
  { m with
    functions := m.functions ++ [f]
    names := m.names.set (index r) ("softfloat." ++ r.name) }

/-- A module with its floating-point operators replaced; `none` if there are none. -/
def lower? (m : Module) : Option Module :=
  let ops := m.functions.flatMap softOps
  if ops.isEmpty then none
  else
    let routines := required (routinesOf ops)
    let index (r : Routine) : Nat := m.funcCount + routines.idxOf r
    let functions := m.functions.map (fun f => { f with body := lowerBody index f.body })
    some (routines.foldl (addRoutine index) { m with functions := functions })

/-- A checked module with its floating-point operators replaced, checked again. -/
def lower (v : Validated) : Except CompileError Validated :=
  match lower? v.module with
  | none => .ok v
  | some m => validate m

end ScoreWasm.SoftFloat
