import ScoreWasm.Emit.FloatOrder
import ScoreWasm.Emit.Frame
import ScoreWasm.Emit.Memory
import ScoreWasm.Emit.Stack
import ScoreWasm.Flow.Graph
import ScoreWasm.Host.Basic

/-!
# The code of instructions

Each instruction takes operands from the stack and puts results on it, which fixes the slots that its
code works on.
-/

namespace ScoreWasm.Emit

open Wasm Word

structure Site where
  ns : String
  module : Module
  func : Nat
  locals : List ValType
  hosts : List Host

def Site.localType (s : Site) (i : Int) : ValType := (elementAt? s.locals i).getD .i32

def Site.globalType (s : Site) (i : Int) : ValType :=
  ((elementAt? s.module.globalTypes i).map GlobalType.type).getD .i32

abbrev Lower := StateT Stack (Except CompileError)

namespace Lower

def pop : Lower StackValue := fun s => s.pop

def popReg : Lower Reg := do return .slot (← pop).slot

def push (t : ValType) : Lower Reg := fun s =>
  let (slot, s) := s.push (some t) none
  .ok (.slot slot, s)

def pushConst (t : ValType) (v : Int) : Lower Reg := fun s =>
  let (slot, s) := s.push (some t) (some v)
  .ok (.slot slot, s)

def top : Lower Reg := fun s => do return (.slot (← s.peek 0).slot, s)

def popMany : Nat → Lower (List StackValue)
  | 0 => return []
  | n + 1 => do
    let v ← pop
    return (← popMany n) ++ [v]

end Lower

open Lower

def onOne (result : ValType) (f : Reg → Script) : Lower Script := do
  let a ← popReg
  discard (push result)
  return f a

/-- An operator that replaces two operands, given the value of the second one if it is known. -/
def onTwo (result : ValType) (f : Reg → Reg → Option Int → Script) : Lower Script := do
  let b ← pop
  let a ← pop
  discard (push result)
  return f (.slot a.slot) (.slot b.slot) b.const

def signExtendCode (n : Narrow) (a : Reg) : Script :=
  match n with
  | .i32of8 => signExtend a 8
  | .i32of16 => signExtend a 16
  | .i64of8 => signExtend a 8 ++ signIntoHigh a
  | .i64of16 => signExtend a 16 ++ signIntoHigh a
  | .i64of32 => signIntoHigh a

/-- The code of a numeric operator.  Operators on floating-point numbers as numbers have none. -/
def numCode (ns : String) (op : NumOp) : Lower Script :=
  match op with
  | .eqz .x32 => onOne .i32 (fun a => test a [is a 0])
  | .eqz .x64 => onOne .i32 (fun a => test a [is a 0, is a.high 0])
  | .intRel .x32 r => onTwo .i32 (fun a b _ => compare32 r a b)
  | .intRel .x64 r => onTwo .i32 (fun a b _ => compare64 r a b)
  | .floatRel w r =>
    onTwo .i32 (fun a b _ => orderInto ns w a b ++ test a [orderClause r])
  | .intUn .x32 u => onOne .i32 (unary32 ns u)
  | .intUn .x64 u => onOne .i64 (unary64 ns u)
  | .intBin .x32 b => onTwo .i32 (binary32 ns b)
  | .intBin .x64 b => onTwo .i64 (fun x y _ => binary64 ns b x y)
  | .floatUn w .abs => onOne w.float (fun a => clearSign (signWord w a))
  | .floatUn w .neg => onOne w.float (negate w)
  | .floatBin w .copysign => onTwo w.float (fun a b _ => copySign w a b)
  | .floatBin w .min =>
    onTwo w.float (fun a b _ => orderInto ns w a b ++ pickOrdered w true a b)
  | .floatBin w .max =>
    onTwo w.float (fun a b _ => orderInto ns w a b ++ pickOrdered w false a b)
  | .wrap => onOne .i32 (fun _ => .empty)
  | .extend true => onOne .i64 signIntoHigh
  | .extend false => onOne .i64 (fun a => set a.high 0)
  | .reinterpretFloat w => onOne w.int (fun _ => .empty)
  | .reinterpretInt w => onOne w.float (fun _ => .empty)
  | .signExtend n => onOne n.type (signExtendCode n)
  | _ => throw (.emit (.noLowering op.name))

def constCode (t : ValType) (v : Int) : Lower Script :=
  match t with
  | .i32 => do
    let r ← pushConst .i32 (wrap32 v)
    return set r v
  | .f32 => do
    let r ← push .f32
    return set r v
  | _ => do
    let (lo, hi) := split64 v
    let r ← push t
    return set r lo ++ set r.high hi

def selectCode (t : ValType) : Lower Script := do
  let c ← popReg
  let b ← popReg
  let a ← popReg
  discard (push t)
  return given [is c 0] (operate a .assign b)
    ++ .onlyIf t.isWide (given [is c 0] (operate a.high .assign b.high))

/-- The code of a call of a host function: its commands with the registers of the operands. -/
def hostCode (site : Site) (f : Int) : Lower Script := do
  match elementAt? site.hosts f with
  | none => throw (.emit (.unboundImport f))
  | some host =>
    let args ← popMany host.params.length
    let height := (← get).height
    let base : Nat := (args.head?.map StackValue.slot).getD height
    modify (fun s => s.truncate base)
    let target ← match host.results with
      | t :: _ => some <$> push t
      | [] => pure none
    let name (r : Reg) : String := r.name
    let lines := host.expand site.ns (args.map (fun a => name (.slot a.slot))) (target.map name)
    return ⟨lines.map Line.ofText, []⟩

def plainCode (site : Site) (c : Checked) : Lower Script :=
  let ns := site.ns
  match c.instr with
  | .nop => return .empty
  | .drop => do
    discard pop
    return .empty
  | .select _ => selectCode (c.valueType.getD .i32)
  | .localGet i => do
    let t := site.localType i
    return copyValue (← push t) (.localVar i) t.isWide
  | .localSet i => do
    return copyValue (.localVar i) (← popReg) (site.localType i).isWide
  | .localTee i => do
    return copyValue (.localVar i) (← top) (site.localType i).isWide
  | .globalGet i => do
    let t := site.globalType i
    return copyValue (← push t) (.globalVar i) t.isWide
  | .globalSet i => do
    let t := site.globalType i
    return copyValue (.globalVar i) (← popReg) t.isWide
  | .load op arg => do
    let address ← popReg
    let target ← push op.type
    return boundsCheck ns address arg.offset op.size ++ loadAt ns op target
  | .store op arg => do
    let value ← popReg
    let address ← popReg
    return boundsCheck ns address arg.offset op.size ++ storeAt ns op.size value
  | .memorySize => do
    return copy (← push .i32) "%memsize"
  | .memoryGrow => do
    let a ← popReg
    let target ← push .i32
    return .join [copy "%x" a, call ns "rt/mem/grow", copy target "%q"]
  | .call f => hostCode site f
  | .const t v => constCode t v
  | .num op => numCode ns op
  | other => throw (.emit (.noLowering other.name))

def moveCode (src dst : Int) (types : List ValType) : Script :=
  .join (types.mapIdx (fun i t => copyValue (.slot (dst + i)) (.slot (src + i)) t.isWide))

/-- Brings back what a call has saved, and fetches its results. -/
def resumeCode (site : Site) (live results : List ValType) (base : Int) : Script :=
  .join [restoreFields site.ns (frameFields site.locals live),
    .command (.removeData (inNamespace site.ns "rt") topFrame),
    .join (results.mapIdx (fun i t => copyValue (.slot (base + i)) (.result i) t.isWide))]

/-- The code of what a block holds.  The height of the stack must be the one that type checking
found. -/
def blockInstrCode (site : Site) (block : Nat) (i : Flow.BlockInstr) : Lower Script :=
  match i with
  | .plain c => do
    let h := (← get).height
    if c.height != h then
      throw (.emit (.heightMismatch site.func block c.instr.name c.height h))
    plainCode site c
  | .move src dst types => do
    modify (fun s => types.foldl (fun s t => (s.push (some t) none).2) (s.truncate dst))
    return moveCode src dst types
  | .resume live results base => return resumeCode site live results base

def blockCode (site : Site) (index : Nat) (b : Flow.Block) : Except CompileError Script := do
  let (scripts, _) ← (b.instrs.mapM (blockInstrCode site index)).run (Stack.ofHeight b.height)
  return .join scripts

end ScoreWasm.Emit
