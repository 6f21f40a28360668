import ScoreWasm.Wasm.Error
import ScoreWasm.Wasm.Module

/-!
# Type checking

A body is checked instruction by instruction against a stack of operand types and a stack of open
blocks.  After an instruction that never falls through, the operands of its block are unknown: any
type may be taken from them.  The outcome is the body with what was found on the way: the height of
the operand stack before each instruction, the types of blocks and of untyped operands, and the
operand types at calls.
-/

namespace ScoreWasm.Wasm

abbrev Operand := Option ValType

/-- The first type with a name among those of operands, and `i32` if there is none. -/
def namedType (operands : List Operand) : ValType :=
  ((operands.filterMap id).find? (fun t => !t.name.isEmpty)).getD .i32

structure Checked where
  instr : Instr
  offset : Nat
  height : Nat
  blockType : Option FuncType
  valueType : Option ValType
  stack : Option (List Operand)
  deriving DecidableEq, Repr

/-- A module that passed type checking, with the checked bodies of its functions. -/
structure Validated where
  module : Module
  bodies : List (List Checked)
  deriving DecidableEq, Repr

namespace Validate

inductive FrameKind where
  | function
  | block
  | loop
  | if_
  | else_
  deriving DecidableEq, Repr

/-- An open block: its type, the height of the operand stack below it, and whether the rest of it is
unreachable. -/
structure Frame where
  kind : FrameKind
  type : FuncType
  height : Nat
  dead : Bool
  deriving DecidableEq, Repr

def Frame.labelTypes (f : Frame) : List ValType :=
  if f.kind == .loop then f.type.params else f.type.results

/-- The operands, the topmost first, and the open blocks, the innermost first. -/
structure Stacks where
  vals : List Operand
  frames : List Frame

structure Context where
  module : Module
  results : List ValType
  locals : List ValType
  offset : Nat

abbrev Check := StateT Stacks (Except CompileError)

/-- Stops since a negative index reaches before the first element. -/
def failRange {α : Type} : Check α := fun _ => .error .outOfRange

def Context.fail {α : Type} (ctx : Context) (reason : Invalid) : Check α := fun _ =>
  .error (.invalid reason (some "code") (some ctx.offset))

/-! ### Operands -/

def push (t : Operand) : Check Unit := modify (fun s => { s with vals := t :: s.vals })

def pushMany (ts : List Operand) : Check Unit :=
  modify (fun s => { s with vals := ts.reverse ++ s.vals })

def pushTypes (ts : List ValType) : Check Unit := pushMany (ts.map some)

/-- Takes an operand without looking at its type; `none` at the bottom of an unreachable block. -/
def take (ctx : Context) : Check (Option Operand) := do
  let s ← get
  match s.frames with
  | [] => ctx.fail .underflow
  | frame :: _ =>
    match s.vals with
    | v :: rest =>
      if s.vals.length == frame.height then
        if frame.dead then return none else ctx.fail .underflow
      else
        set { s with vals := rest }
        return some v
    | [] => if frame.dead then return none else ctx.fail .underflow

/-- Takes an operand that should have a type; gives the type that is known in the end. -/
def pop (ctx : Context) (expect : Operand) : Check Operand := do
  match ← take ctx with
  | none => return expect
  | some none => return expect
  | some (some actual) =>
    match expect with
    | some t =>
      if t == actual then return some actual else ctx.fail (.mismatch t.name actual.name)
    | none => return some actual

/-- Takes operands of types, the last one from the top; gives them in order. -/
def popMany (ctx : Context) : List ValType → Check (List Operand)
  | [] => return []
  | t :: rest => do
    let after ← popMany ctx rest
    let v ← pop ctx (some t)
    return v :: after

/-! ### Blocks -/

/-- The element at an index.  Too large an index is a fault of its own. -/
def elementOr {α : Type} (l : List α) (i : Int) (tooLarge : Check α) : Check α :=
  match elementAt? l i with
  | some a => return a
  | none => if i < 0 then failRange else tooLarge

def pushFrame (kind : FrameKind) (t : FuncType) : Check Unit := do
  modify (fun s => { s with frames := ⟨kind, t, s.vals.length, false⟩ :: s.frames })
  pushTypes t.params

/-- Closes the innermost block, whose results must be all that is left in it. -/
def popFrame (ctx : Context) : Check Frame := do
  match (← get).frames with
  | [] => ctx.fail .unexpectedEnd
  | frame :: rest =>
    discard (popMany ctx frame.type.results)
    if (← get).vals.length != frame.height then ctx.fail .valuesRemaining
    modify (fun s => { s with frames := rest })
    return frame

def setDead : Check Unit :=
  modify (fun s => match s.frames with
    | frame :: rest =>
      { vals := s.vals.drop (s.vals.length - frame.height)
        frames := { frame with dead := true } :: rest }
    | [] => s)

def labelTypes (ctx : Context) (depth : Int) : Check (List ValType) := do
  let f ← elementOr (← get).frames depth (ctx.fail (.unknownLabel depth))
  return f.labelTypes

def blockFuncType (ctx : Context) : BlockType → Check FuncType
  | .empty => return ⟨[], []⟩
  | .value t => return ⟨[], [t]⟩
  | .index i =>
    match i with
    | .ofNat n =>
      match ctx.module.types[n]? with
      | some t => return t
      | none => ctx.fail (.unknownType i)
    | .negSucc _ => ctx.fail (.unknownType i)

/-! ### Instructions -/

structure Note where
  blockType : Option FuncType
  valueType : Option ValType
  stack : Option (List Operand)

def Note.empty : Note := ⟨none, none, none⟩

def needMemory (ctx : Context) : Check Unit :=
  if ctx.module.memoryLimits.isEmpty then ctx.fail (.unknown "memory" 0) else return ()

/-- Requires that an access promises no more than its natural alignment. -/
def needAlignment (ctx : Context) (size : Nat) (align : Int) : Check Unit :=
  match align with
  | .negSucc _ => fun _ => .error .noAlignment
  | .ofNat e => if size.log2 < e then ctx.fail .alignment else return ()

def localType (ctx : Context) (i : Int) : Check ValType :=
  elementOr ctx.locals i (ctx.fail (.unknown "local" i))

def globalType (ctx : Context) (i : Int) : Check GlobalType :=
  elementOr ctx.module.globalTypes i (ctx.fail (.unknown "global" i))

def applyType (ctx : Context) (t : FuncType) : Check Unit := do
  discard (popMany ctx t.params)
  pushTypes t.results

/-- Takes and gives operands as a call does; the operands before it are kept for the record. -/
def applyCall (ctx : Context) (t : FuncType) (indexed : Bool) : Check Note := do
  let before := (← get).vals.reverse
  if indexed then discard (pop ctx (some .i32))
  applyType ctx t
  return { Note.empty with stack := some before }

def openBlock (ctx : Context) (kind : FrameKind) (bt : BlockType) : Check Note := do
  let t ← blockFuncType ctx bt
  if kind == .if_ then discard (pop ctx (some .i32))
  discard (popMany ctx t.params)
  pushFrame kind t
  return { Note.empty with blockType := some t }

/-- Checks that the labels of a branch table agree with its default. -/
def checkTable (ctx : Context) (arity : Nat) : List Int → Check Unit
  | [] => return ()
  | depth :: rest => do
    let types ← labelTypes ctx depth
    if types.length != arity then ctx.fail .tableArity
    pushMany (← popMany ctx types)
    checkTable ctx arity rest

def checkSelect (ctx : Context) (types : Option (List ValType)) : Check Note := do
  discard (pop ctx (some .i32))
  let expect : Operand ← match types with
    | none => pure none
    | some [] => pure none
    | some [t] => pure (some t)
    | some _ => ctx.fail .selectArity
  let first ← pop ctx expect
  let second ← pop ctx first
  let type := namedType [first, second, expect]
  if !type.isNumeric then ctx.fail .selectMismatch
  push (first <|> second)
  return { Note.empty with valueType := some type }

def step (ctx : Context) : Instr → Check Note
  | .unreachable _ => do
    setDead
    return .empty
  | .nop => return .empty
  | .block t => openBlock ctx .block t
  | .loop t => openBlock ctx .loop t
  | .if_ t => openBlock ctx .if_ t
  | .else_ => do
    match (← get).frames with
    | frame :: _ =>
      if frame.kind != .if_ then ctx.fail .elseWithoutIf
      discard (popFrame ctx)
      pushFrame .else_ frame.type
      return .empty
    | [] => ctx.fail .elseWithoutIf
  | .end_ => do
    let frame ← popFrame ctx
    if frame.kind == .if_ && frame.type.params != frame.type.results then ctx.fail .ifWithoutElse
    pushTypes frame.type.results
    if frame.kind == .function then modify (fun s => { s with vals := [] })
    return .empty
  | .br l => do
    discard (popMany ctx (← labelTypes ctx l))
    setDead
    return .empty
  | .brIf l => do
    discard (pop ctx (some .i32))
    let types ← labelTypes ctx l
    pushMany (← popMany ctx types)
    return .empty
  | .brTable labels d => do
    discard (pop ctx (some .i32))
    let types ← labelTypes ctx d
    checkTable ctx types.length labels
    discard (popMany ctx types)
    setDead
    return .empty
  | .ret => do
    discard (popMany ctx ctx.results)
    setDead
    return .empty
  | .call f => do
    if f < 0 || ctx.module.funcCount ≤ f then ctx.fail (.unknown "function" f)
    match ctx.module.funcType? f with
    | some t => applyCall ctx t false
    | none => failRange
  | .callIndirect type table => do
    if ctx.module.tableLimits.length ≤ table then ctx.fail (.unknown "table" table)
    let t ← elementOr ctx.module.types type (ctx.fail (.unknownType type))
    applyCall ctx t true
  | .drop => do
    let t ← pop ctx none
    return { Note.empty with valueType := some (namedType [t]) }
  | .select types => checkSelect ctx types
  | .localGet i => do
    push (some (← localType ctx i))
    return .empty
  | .localSet i => do
    discard (pop ctx (some (← localType ctx i)))
    return .empty
  | .localTee i => do
    let t ← localType ctx i
    discard (pop ctx (some t))
    push (some t)
    return .empty
  | .globalGet i => do
    push (some (← globalType ctx i).type)
    return .empty
  | .globalSet i => do
    let g ← globalType ctx i
    if !g.isMutable then ctx.fail .immutableGlobal
    discard (pop ctx (some g.type))
    return .empty
  | .load op arg => do
    needMemory ctx
    needAlignment ctx op.size arg.align
    applyType ctx ⟨[.i32], [op.type]⟩
    return .empty
  | .store op arg => do
    needMemory ctx
    needAlignment ctx op.size arg.align
    applyType ctx ⟨[.i32, op.type], []⟩
    return .empty
  | .memorySize => do
    needMemory ctx
    push (some .i32)
    return .empty
  | .memoryGrow => do
    needMemory ctx
    applyType ctx ⟨[.i32], [.i32]⟩
    return .empty
  | .const t _ => do
    push (some t)
    return .empty
  | .num op => do
    applyType ctx op.type
    return .empty

def steps (ctx : Context) : List Placed → Stacks → List Checked → Nat →
    Except CompileError (List Checked)
  | [], s, acc, offset =>
    if s.frames.isEmpty then .ok acc.reverse
    else .error (.invalid .bodyEnd (some "code") (if acc.isEmpty then none else some offset))
  | p :: rest, s, acc, _ =>
    let ctx := { ctx with offset := p.offset }
    if s.frames.isEmpty then .error (.invalid .afterEnd (some "code") (some p.offset))
    else
      match step ctx p.instr s with
      | .error e => .error e
      | .ok (note, s') =>
        let checked : Checked :=
          ⟨p.instr, p.offset, s.vals.length, note.blockType, note.valueType, note.stack⟩
        steps ctx rest s' (checked :: acc) p.offset

def function (m : Module) (f : Function) : Except CompileError (List Checked) :=
  match m.typeAt? f.type with
  | none => .error .outOfRange
  | some t =>
    let ctx : Context := ⟨m, t.results, t.params ++ f.locals, 0⟩
    steps ctx f.body ⟨[], [⟨.function, ⟨[], t.results⟩, 0, false⟩]⟩ [] 0

/-! ### Modules -/

def constant (expect : ValType) (part : String) (e : Expr) : Except CompileError Int :=
  let offset := e.head?.map Placed.offset
  match e with
  | [p] =>
    match p.instr with
    | .globalGet _ => .error (.unsupported "imports" "global.get in constant expression" offset)
    | .const t v =>
      if t == expect then .ok v
      else .error (.invalid (.mismatch expect.name t.name) (some part) offset)
    | _ => .error (.invalid .constantRequired (some part) offset)
  | _ => .error (.invalid .constantRequired (some part) offset)

def require (ok : Bool) (reason : Invalid) (part : String) : Except CompileError Unit :=
  if ok then .ok () else .error (.invalid reason (some part) none)

def checkLimits (maximum : Nat) (part : String) (l : Limits) : Except CompileError Unit := do
  require (l.min ≤ maximum && l.max.all (fun n => n ≤ (maximum : Int))) (.sizeAtMost part maximum) part
  require (l.max.all (l.min ≤ ·)) .minAboveMax part

/-- Checks an import: only functions can be imported. -/
def checkImport (m : Module) (i : Import) : Except CompileError Unit :=
  match i.desc with
  | .func t => require (t < m.types.length) (.unknownType t) "import"
  | d => .error (.unsupported "imports"
      ("imported " ++ d.kind.name ++ " " ++ i.module ++ "." ++ i.name) none)

def countOf (m : Module) : ExternKind → Nat
  | .func => m.funcCount
  | .table => m.tableLimits.length
  | .memory => m.memoryLimits.length
  | .global => m.globalTypes.length

def checkExports (m : Module) : List String → List Export → Except CompileError Unit
  | _, [] => .ok ()
  | seen, e :: rest => do
    require (!seen.contains e.name) (.duplicateExport e.name) "export"
    match e.kind with
    | .unknown s => throw (.noExportKind s)
    | .known k =>
      require (e.index < countOf m k) (.unknown k.name e.index) "export"
      checkExports m (e.name :: seen) rest

def checkStart (m : Module) : Except CompileError Unit :=
  match m.start with
  | none => .ok ()
  | some f => do
    require (f < m.funcCount) (.unknown "function" f) "start"
    match m.funcType? f with
    | some t => require (t == ⟨[], []⟩) .startType "start"
    | none => throw .outOfRange

def checkElement (m : Module) (e : ElemSegment) : Except CompileError Unit := do
  match e.mode with
  | .active table x =>
    require (table < m.tableLimits.length) (.unknown "table" table) "element"
    discard (constant .i32 "element" x)
  | _ => pure ()
  for f in e.funcs do
    require (f < m.funcCount) (.unknown "function" f) "element"

def checkData (m : Module) (d : DataSegment) : Except CompileError Unit :=
  match d.mode with
  | .active memory x => do
    require (memory < m.memoryLimits.length) (.unknown "memory" memory) "data"
    discard (constant .i32 "data" x)
  | .passive => .ok ()

def maxMemoryPages : Nat := 65536

def checkOutside (m : Module) : Except CompileError Unit := do
  m.imports.forM (checkImport m)
  m.functions.forM (fun f => require (f.type < m.types.length) (.unknownType f.type) "function")
  if 1 < m.tables.length then throw (.unsupported "reference-types" "multiple tables" none)
  m.tables.forM (checkLimits 0xffffffff "table")
  if 1 < m.memories.length then throw (.unsupported "multi-memory" "multiple memories" none)
  m.memories.forM (checkLimits maxMemoryPages "memory")
  m.globals.forM (fun g => discard (constant g.type.type "global" g.init))
  checkExports m [] m.exports
  checkStart m
  m.elements.forM (checkElement m)
  m.data.forM (checkData m)

end Validate

def validate (m : Module) : Except CompileError Validated :=
  Except.mapError CompileError.settled (do
    Validate.checkOutside m
    return ⟨m, ← m.functions.mapM (Validate.function m)⟩)

end ScoreWasm.Wasm
