import ScoreWasm.Flow.Graph

/-!
# From structured code to a graph

The body is read once from front to back.  A stack of open blocks tells what each label stands for:
the head of a loop, the block after the end of another construct, or the function's return.  The
block after a construct is made when the first branch asks for it, and for an `if` at once.
-/

namespace ScoreWasm.Flow

open Wasm

def maxBlocks : Nat := 65535

structure OpenBlock where
  kind : BlockKind
  height : Int
  instrs : Array BlockInstr
  term : Option Terminator

inductive ScopeKind where
  | function
  | block
  | loop
  | if_
  | else_
  deriving DecidableEq, Repr

/-- An open construct: `base` is the height below its parameters, `target` the block that its label
stands for, once there is one. -/
structure Scope where
  kind : ScopeKind
  type : FuncType
  base : Int
  target : Option Nat
  elseBlock : Option Nat

/-- The types of the values that a branch to a construct takes along. -/
def Scope.labelTypes (s : Scope) : List ValType :=
  if s.kind == .loop then s.type.params else s.type.results

structure Draft where
  blocks : Array OpenBlock
  current : Nat
  scopes : List Scope

structure Site where
  module : Module
  func : Nat
  type : FuncType

abbrev Build := StateT Draft (Except CompileError)

namespace Build

def newBlock (site : Site) (kind : BlockKind) (height : Int) : Build Nat := do
  let index := (← get).blocks.size
  if maxBlocks ≤ index then
    throw (.limit ("basic blocks in function " ++ toString site.func) (index + 1) maxBlocks)
  modify (fun d => { d with blocks := d.blocks.push ⟨kind, height, #[], none⟩ })
  return index

def enter (block : Nat) : Build Unit := modify (fun d => { d with current := block })

def append (block : Nat) (i : BlockInstr) : Build Unit :=
  modify (fun d => { d with
    blocks := d.blocks.modify block (fun b => { b with instrs := b.instrs.push i }) })

def setTerm (block : Nat) (t : Terminator) : Build Unit :=
  modify (fun d => { d with blocks := d.blocks.modify block (fun b => { b with term := some t }) })

def terminate (t : Terminator) : Build Unit := do
  let d ← get
  if ((d.blocks[d.current]?).bind OpenBlock.term).isSome then
    throw (.emit (.terminatedTwice d.current))
  setTerm d.current t

def enterDead (site : Site) (height : Int) : Build Unit := do
  enter (← newBlock site .dead (max height 0))

def openScope (s : Scope) : Build Unit := modify (fun d => { d with scopes := s :: d.scopes })

/-- The block after a construct, made if there is none yet. -/
def mergeOf (site : Site) (depth : Nat) (s : Scope) : Build Nat := do
  match s.target with
  | some b => return b
  | none =>
    let b ← newBlock site .merge (s.base + s.type.results.length)
    modify (fun d => { d with scopes := d.scopes.set depth { s with target := some b } })
    return b

/-- A branch to a label from a height: the move that takes its values along, if one is needed, and
where it goes. -/
def resolve (site : Site) (label : Int) (height : Int) : Build (Option BlockInstr × Terminator) := do
  let scopes := (← get).scopes
  let depth := (position? scopes.length label).getD scopes.length
  match scopes[depth]? with
  | none => return (none, .ret (height - site.type.results.length))
  | some s =>
    if s.kind == .function then return (none, .ret (height - site.type.results.length))
    let types := s.labelTypes
    let src := height - types.length
    let move := if !types.isEmpty && src != s.base then some (.move src s.base types) else none
    if s.kind == .loop then return (move, .jump (s.target.getD 0) true)
    return (move, .jump (← mergeOf site depth s) false)

/-- The block that a conditional branch to a label enters: the target itself where nothing has to be
done on the way, and a block of its own otherwise. -/
def edge (site : Site) (label : Int) (height : Int) : Build Nat := do
  let (move, term) ← resolve site label height
  let between : Build Nat := do
    let b ← newBlock site .edge height
    match move with
    | some i => append b i
    | none => pure ()
    setTerm b term
    return b
  match move, term with
  | none, .jump target false => return target
  | _, _ => between

/-- The blocks of the labels of a branch table.  A label that occurs again has its block already. -/
def tableEdges (site : Site) (height : Int) : List (Int × Nat) → List Int → Build (List Nat)
  | _, [] => return []
  | known, label :: rest => do
    match known.lookup label with
    | some b => return b :: (← tableEdges site height known rest)
    | none =>
      let b ← edge site label height
      return b :: (← tableEdges site height ((label, b) :: known) rest)

/-- The first operands of a stack, up to a height; a negative height counts from the top. -/
def operandsBelow (base : Int) (stack : List Operand) : List ValType :=
  (slice stack 0 base).map (fun t => namedType [t])

/-- Ends the current block with a call, given how it ends, and goes on after it. -/
def callThen (site : Site) (base : Int) (live : List ValType) (callee : FuncType)
    (term : Nat → Terminator) : Build Unit := do
  let cont ← newBlock site .cont (base + callee.results.length)
  terminate (term cont)
  append cont (.resume live callee.results base)
  enter cont

def closeScope : Build Unit := do
  match (← get).scopes with
  | [] => return ()
  | s :: rest =>
    modify (fun d => { d with scopes := rest })
    match s.kind, s.target with
    | .function, _ => terminate (.ret 0)
    | .loop, _ => return ()
    | _, none => return ()
    | _, some target =>
      terminate (.fallthrough target)
      enter target

def turnElse : Build Unit := do
  match (← get).scopes with
  | [] => return ()
  | s :: rest =>
    terminate (.fallthrough (s.target.getD 0))
    modify (fun d => { d with scopes := { s with kind := .else_ } :: rest })
    enter (s.elseBlock.getD 0)

/-- Reads one instruction.  `hasElse` tells of an `if` whether it has a second arm. -/
def step (site : Site) (hasElse : Bool) (c : Checked) : Build Unit := do
  let h : Int := c.height
  let type := c.blockType.getD ⟨[], []⟩
  match c.instr with
  | .nop => return ()
  | .block _ => openScope ⟨.block, type, h - type.params.length, none, none⟩
  | .loop _ =>
    let header ← newBlock site .loop h
    terminate (.fallthrough header)
    enter header
    openScope ⟨.loop, type, h - type.params.length, some header, none⟩
  | .if_ _ =>
    let base := h - 1 - type.params.length
    let thenBlock ← newBlock site .then_ (h - 1)
    let elseBlock ← if hasElse then some <$> newBlock site .else_ (h - 1) else pure none
    let merge ← newBlock site .merge (base + type.results.length)
    terminate (.branchIf (h - 1) thenBlock (elseBlock.getD merge))
    openScope ⟨.if_, type, base, some merge, elseBlock⟩
    enter thenBlock
  | .else_ => turnElse
  | .end_ => closeScope
  | .br l =>
    let (move, term) ← resolve site l h
    match move with
    | some i => append (← get).current i
    | none => pure ()
    terminate term
    enterDead site h
  | .brIf l =>
    let taken ← edge site l (h - 1)
    let cont ← newBlock site .next (h - 1)
    terminate (.branchIf (h - 1) taken cont)
    enter cont
  | .brTable labels d =>
    let blocks ← tableEdges site (h - 1) [] (labels ++ [d])
    terminate (.branchTable (h - 1) blocks.dropLast (blocks.getLastD 0))
    enterDead site (h - 1)
  | .ret =>
    terminate (.ret (h - site.type.results.length))
    enterDead site h
  | .unreachable kind =>
    terminate (.unreachable (kind.getD .unreachable))
    enterDead site h
  | .call f =>
    if site.module.isImport f then append (← get).current (.plain c)
    else
      let callee := site.module.funcType f
      let base := h - callee.params.length
      let live := operandsBelow base (c.stack.getD [])
      callThen site base live callee
        (fun cont => .call f cont base live callee.params callee.results)
  | .callIndirect t table =>
    let callee := (site.module.typeAt? t).getD ⟨[], []⟩
    let base := h - 1 - callee.params.length
    let live := operandsBelow base (c.stack.getD [])
    callThen site base live callee
      (fun cont => .callIndirect t table cont base live callee.params callee.results)
  | _ => append (← get).current (.plain c)

end Build

/-- One step of looking for second arms, from the back: what is known of the constructs that are
still open to the left, and the answers so far. -/
def elseStep (c : Checked) (state : List Bool × List Bool) : List Bool × List Bool :=
  let (enclosing, flags) := state
  match c.instr with
  | .end_ => (false :: enclosing, false :: flags)
  | .else_ => (true :: enclosing.tail, false :: flags)
  | .block _ => (enclosing.tail, false :: flags)
  | .loop _ => (enclosing.tail, false :: flags)
  | .if_ _ => (enclosing.tail, enclosing.headD false :: flags)
  | _ => (enclosing, false :: flags)

/-- For each instruction of a body, whether it is an `if` with a second arm. -/
def elseFlags (body : List Checked) : List Bool := (body.foldr elseStep ([], [])).2

def closeBlock (func index : Nat) (b : OpenBlock) : Except CompileError Block :=
  match b.term with
  | some t => .ok ⟨b.kind, b.height, b.instrs.toList, t⟩
  | none => .error (.emit (.noTerminator index func))

def Graph.ofBody (m : Module) (func : Nat) (body : List Checked) : Except CompileError Graph := do
  let type := m.funcType func
  let site : Site := ⟨m, func, type⟩
  let start : Draft := ⟨#[⟨.entry, 0, #[], none⟩], 0, [⟨.function, ⟨[], type.results⟩, 0, none, none⟩]⟩
  let steps : Build Unit := (body.zip (elseFlags body)).forM (fun (c, e) => Build.step site e c)
  let (_, d) ← steps.run start
  let blocks ← d.blocks.mapIdxM (closeBlock func)
  return ⟨func, type, blocks⟩

def Graph.ofModule (v : Validated) : Except CompileError (List Graph) :=
  ((List.range v.bodies.length).zip v.bodies).mapM (fun (i, body) =>
    Graph.ofBody v.module (v.module.importCount + i) body)

end ScoreWasm.Flow
