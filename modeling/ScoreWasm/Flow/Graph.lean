import ScoreWasm.Wasm.Validate

/-!
# Control-flow graphs

A function body without its nesting: basic blocks that name each other by index.  A block holds
instructions that run one after another on numbered operand slots, and ends in a terminator that
says where control goes.  Block 0 is the entry.

Besides the instructions of the body there are two of the graph's own: one moves the values that a
branch takes along to where its target expects them, the other brings back what a call has saved and
the results of the callee.
-/

namespace ScoreWasm.Flow

open Wasm

/-- How a block ends.  Slots are counted from the bottom of the operand stack; in unreachable code
the count may be negative. -/
inductive Terminator where
  | fallthrough (target : Nat)
  | jump (target : Nat) (back : Bool)
  | branchIf (cond : Int) (taken other : Nat)
  | branchTable (index : Int) (targets : List Nat) (default : Nat)
  | ret (base : Int)
  | unreachable (kind : Trap)
  | call (func : Int) (cont : Nat) (base : Int) (live params results : List ValType)
  | callIndirect (type table : Int) (cont : Nat) (base : Int)
      (live params results : List ValType)
  deriving DecidableEq, Repr

inductive BlockInstr where
  | plain (c : Checked)
  | move (src dst : Int) (types : List ValType)
  | resume (live results : List ValType) (base : Int)
  deriving DecidableEq, Repr

inductive BlockKind where
  | entry
  | loop
  | then_
  | else_
  | merge
  | next
  | edge
  | cont
  | dead
  deriving DecidableEq, Repr

def BlockKind.name : BlockKind → String
  | entry => "entry"
  | loop => "loop"
  | then_ => "then"
  | else_ => "else"
  | merge => "merge"
  | next => "next"
  | edge => "edge"
  | cont => "cont"
  | dead => "dead"

/-- A basic block: `height` is the number of operands when it is entered. -/
structure Block where
  kind : BlockKind
  height : Int
  instrs : List BlockInstr
  term : Terminator
  deriving DecidableEq, Repr

structure Graph where
  func : Nat
  type : FuncType
  blocks : Array Block

def Terminator.successors : Terminator → List Nat
  | fallthrough target => [target]
  | jump target _ => [target]
  | branchIf _ taken other => [taken, other]
  | branchTable _ targets default => (targets ++ [default]).eraseDups
  | ret _ => []
  | unreachable _ => []
  | call _ cont _ _ _ _ => [cont]
  | callIndirect _ _ cont _ _ _ _ => [cont]

namespace Graph

def successors (g : Graph) (b : Nat) : List Nat :=
  ((g.blocks[b]?).map (fun block => block.term.successors)).getD []

def edges (g : Graph) : List (Nat × Nat) :=
  (g.blocks.toList.mapIdx (fun i b => b.term.successors.map (fun s => (i, s)))).flatten

def backEdges (g : Graph) : List (Nat × Nat) :=
  (g.blocks.toList.mapIdx (fun i b => match b.term with
    | .jump target true => [(i, target)]
    | _ => [])).flatten

/-- The blocks that a back edge enters, in increasing order. -/
def loopHeaders (g : Graph) : List Nat :=
  let targets := g.backEdges.map Prod.snd
  (List.range g.blocks.size).filter (fun b => targets.contains b)

end Graph

/-! ### Reachability -/

/-- Marks the unmarked ones among `nodes` and puts them in front of the work still to do. -/
def markNew (nodes : List Nat) (seen : Array Bool) (work : List Nat) : Array Bool × List Nat :=
  nodes.foldl (fun (seen, work) n =>
    if seen.getD n true then (seen, work) else (seen.setIfInBounds n true, n :: work)) (seen, work)

/-- Marks everything that can be reached from the nodes in `work`, which are marked already.  Every
node enters the work at most once, so the number of nodes is fuel enough. -/
def reachFrom (next : Nat → List Nat) : Nat → Array Bool → List Nat → Array Bool
  | 0, seen, _ => seen
  | _ + 1, seen, [] => seen
  | fuel + 1, seen, n :: work =>
    let (seen, work) := markNew (next n) seen work
    reachFrom next fuel seen work

/-- The nodes below `size` that can be reached from `start` in any number of steps. -/
def reach (next : Nat → List Nat) (size : Nat) (start : List Nat) : Array Bool :=
  let (seen, work) := markNew start (Array.replicate size false) []
  reachFrom next (size + 1) seen work

namespace Graph

def reachable (g : Graph) : Array Bool := reach g.successors g.blocks.size [0]

def reachableBlocks (g : Graph) : List Nat :=
  let seen := g.reachable
  (List.range g.blocks.size).filter (fun b => seen.getD b false)

end Graph

end ScoreWasm.Flow
