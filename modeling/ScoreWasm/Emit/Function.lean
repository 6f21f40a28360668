import ScoreWasm.Emit.Dispatch
import ScoreWasm.Emit.Instr
import ScoreWasm.Flow.Build
import ScoreWasm.Library.Control

/-!
# The code of functions

Every basic block becomes a function, and control passes between blocks by going on in another
function, so that nothing piles up however long a program runs.  A call pushes a frame that names the
block after it.
-/

namespace ScoreWasm.Emit

open Wasm ScoreWasm.Flow

/-- How a program is compiled: the namespace, the jumps back and calls that a tick allows, the depth of
calls, and whether blocks are headed by comments. -/
structure Settings where
  ns : String
  budget : Option Int
  maxDepth : Int
  comments : Bool

def blockPathOf (func block : String) : String := "f" ++ func ++ "/b" ++ block

def blockPath (func block : Int) : String := blockPathOf (toString func) (toString block)

def indirectPathOf (table type : String) : String := "rt/icall/t" ++ table ++ "_" ++ type

def indirectPath (table type : Int) : String := indirectPathOf (toString table) (toString type)

def canonicalType (m : Module) (type : Int) : Nat :=
  match m.typeAt? type with
  | some t => m.types.idxOf t
  | none => type.toNat

structure IndirectCall where
  table : Int
  type : Nat
  deriving DecidableEq, Repr

structure Compiled where
  graph : Graph
  scripts : List (String × Script)
  calls : List IndirectCall

/-- Parks the way to a function until the next tick once the budget is spent. -/
def budgetCheck (s : Settings) (path : String) : Script :=
  match s.budget with
  | none => .empty
  | some _ =>
    .join [add "%budget" (-1),
      given [isNegative "%budget"]
        (setData s.ns "rt" Library.resumePath (frameOf (inNamespace s.ns path))),
      given [isNegative "%budget"]
        (.command (.retRun (.schedule (inNamespace s.ns "rt/resume") 1 "replace")))]

def jumpWithin (s : Settings) (path : String) : Script := budgetCheck s path ++ jump s.ns path

def checkWritable (n : Int) : Except CompileError Unit :=
  if Number.isWritable n then .ok () else .error (.number .unwritable)

def checkDepth (s : Settings) : Except CompileError Unit := checkWritable (s.maxDepth + 1)

def openFrame (s : Settings) (site : Site) (cont : Nat) (live : List ValType) : Script :=
  .join [add "%depth" 1,
    given [atLeast "%depth" (s.maxDepth + 1)] (trap s.ns .stackExhausted),
    pushFrame s.ns (blockPath site.func cont),
    saveFields s.ns (frameFields site.locals live)]

def passArguments (base : Int) (params : List ValType) : Script :=
  .join (params.mapIdx (fun i t => copyValue (.localVar i) (.slot (base + i)) t.isWide))

def returnCode (site : Site) (base : Int) : Script :=
  let results := (site.module.funcType site.func).results
  .join [.join (results.mapIdx (fun i t => copyValue (.result i) (.slot (base + i)) t.isWide)),
    add "%depth" (-1), .command (Library.followCommand site.ns topFrame)]

/-- Calls through a table: the entry is looked up, and the function for the type does the rest. -/
def indirectCode (s : Settings) (site : Site) (call : IndirectCall) (cont : Nat) (base : Int)
    (live params : List ValType) (size : Int) : Script :=
  let ns := s.ns
  let undefined := trap ns .undefinedElement
  if size == 0 then undefined
  else
    .join [copy "%ci" (.slot (base + params.length)),
      given [isNegative "%ci"] undefined,
      given [atLeast "%ci" size] undefined,
      writeData ns "rt" [.key "ci", .key "i"] "%ci",
      callWith ns ("rt/table/t" ++ toString call.table) "rt" [.key "ci"],
      given [is "%cf" (-1)] (trap ns .uninitializedElement),
      openFrame s site cont live,
      passArguments base params,
      jumpWithin s (indirectPath call.table call.type)]

/-- The end of a block, with the functions that it goes on in, and the calls through tables. -/
def terminatorCode (s : Settings) (site : Site) (block : Nat) (t : Terminator) :
    Except CompileError (Script × List (String × Script) × List IndirectCall) := do
  let ns := s.ns
  let path (b : Nat) : String := blockPath site.func b
  match t with
  | .fallthrough b => return (jump ns (path b), [], [])
  | .jump b true => return (jumpWithin s (path b), [], [])
  | .jump b false => return (jump ns (path b), [], [])
  | .branchIf cond taken other =>
    if taken == other then return (jump ns (path taken), [], [])
    else
      return (given [isNot (.slot cond) 0] (jump ns (path taken)) ++ jump ns (path other), [], [])
  | .branchTable index targets default =>
    let runs := tableRuns targets default
    runs.forM (fun c => do
      checkWritable c.lo
      checkWritable c.hi)
    let cases := runs.map (fun c => (⟨c.lo, c.hi, goto ns (path c.body)⟩ : Case Command))
    let d := dispatch dispatchLimit (path block) cases (goto ns (path default))
    let script := choiceScript ns (.slot index)
    return (script d.lines, d.extra.map (fun (p, lines) => (p, script lines)), [])
  | .ret base => return (returnCode site base, [], [])
  | .unreachable kind => return (trap ns kind, [], [])
  | .call f cont base live params _ =>
    checkDepth s
    return (.join [openFrame s site cont live, passArguments base params, jumpWithin s (blockPath f 0)],
      [], [])
  | .callIndirect type table cont base live params _ =>
    let call : IndirectCall := ⟨table, canonicalType site.module type⟩
    match elementAt? site.module.tableLimits table with
    | none => throw .outOfRange
    | some l =>
      if l.min != 0 then
        checkWritable l.min
        checkDepth s
      return (indirectCode s site call cont base live params l.min, [],
        if l.min == 0 then [] else [call])

def zeroLocals (site : Site) : Script :=
  let params := (site.module.funcType site.func).params.length
  .join (site.locals.mapIdx (fun i t =>
    .onlyIf (params ≤ i)
      (set (.localVar i) 0 ++ .onlyIf t.isWide (set (Reg.localVar i).high 0))))

def headComment (s : Settings) (site : Site) (index : Nat) (b : Block) : Script :=
  .onlyIf s.comments ⟨[.text ("# " ++ site.module.functionName site.func ++ " block "
    ++ toString index ++ " (" ++ b.kind.name ++ ")")], []⟩

/-- The functions of a block.  A block that cannot be reached traps. -/
def blockScripts (s : Settings) (site : Site) (reachable : Bool) (index : Nat) (b : Block) :
    Except CompileError (List (String × Script) × List IndirectCall) := do
  let head := headComment s site index b
  let path := blockPath site.func index
  if reachable then
    let body ← blockCode site index b
    let (tail, extra, calls) ← terminatorCode s site index b.term
    let code := .join [head, .onlyIf (index == 0) (zeroLocals site), body, tail]
    return ((path, code) :: extra, calls)
  else return ([(path, head ++ trap s.ns .unreachable)], [])

def functionCode (s : Settings) (m : Module) (hosts : List Host) (func : Nat) (f : Function)
    (body : List Checked) : Except CompileError Compiled := do
  let graph ← Graph.ofBody m func body
  let seen := graph.reachable
  let site : Site := ⟨s.ns, m, func, (m.funcType func).params ++ f.locals, hosts⟩
  let parts ← graph.blocks.toList.zipIdx.mapM (fun (b, i) =>
    blockScripts s site (seen.getD i false) i b)
  return ⟨graph, parts.flatMap Prod.fst, parts.flatMap Prod.snd⟩

end ScoreWasm.Emit
