import ScoreWasm.Command.Line
import ScoreWasm.Data.Heap
import ScoreWasm.Machine.Fault
import ScoreWasm.Number.Word
import Std.Data.HashMap

/-!
# The state of a world

A world holds the scoreboard, the storages, the blocks that are not air by default, the calls
scheduled for later ticks, and a record of what has happened: chat lines, how often each function
was entered and how many commands were run.
-/

namespace ScoreWasm.Machine

open Std Word

/-- The scoreboard: its objectives in the order they were added, and the scores that are set. -/
structure Scoreboard where
  objectives : List String
  values : HashMap Score Int

namespace Scoreboard

def empty : Scoreboard := ⟨[], ∅⟩

def get? (b : Scoreboard) (s : Score) : Option Int := b.values[s]?

def has (b : Scoreboard) (objective : String) : Bool := b.objectives.contains objective

def set (b : Scoreboard) (s : Score) (v : Int) : Scoreboard :=
  { b with values := b.values.insert s (wrap32 v) }

def erase (b : Scoreboard) (s : Score) : Scoreboard := { b with values := b.values.erase s }

def under (b : Scoreboard) (objective : String) : List (String × Int) :=
  b.values.toList.filterMap (fun (s, v) => if s.objective == objective then some (s.holder, v) else none)

end Scoreboard

structure Scheduled where
  time : Int
  name : String
  deriving DecidableEq, Repr

/-- The state that commands read and write.  A storage is the address of its compound.  A value that a
line writes down is kept under the line's text once it is needed, so that carrying out the line again
copies the same value.  `drawn` counts the random values taken so far. -/
structure World where
  scores : Scoreboard
  heap : Heap
  storages : HashMap String Nat
  literals : HashMap String Nat
  blocks : HashMap BlockPos String
  scheduled : List Scheduled
  chat : Array String
  entered : HashMap String Nat
  time : Int
  commands : Nat
  drawn : Nat

def World.fresh : World :=
  ⟨.empty, .empty, ∅, ∅, ∅, [], #[], ∅, 0, 0, 0⟩

namespace World

def find? (w : World) (id : String) (path : Path) : Option Datum :=
  (w.storages[id]?).bind (fun a => w.heap.lookup path (.ref a))

/-- The compound of a storage, which is made if the storage was never used. -/
def root (w : World) (id : String) : Datum × World :=
  match w.storages[id]? with
  | some a => (.ref a, w)
  | none =>
    let (a, heap) := w.heap.alloc (.compound [])
    (.ref a, { w with heap := heap, storages := w.storages.insert id a })

def blockAt (w : World) (pos : BlockPos) : String := w.blocks.getD pos "minecraft:air"

def timesEntered (w : World) (name : String) : Nat := w.entered.getD name 0

end World

/-- A computation on the world that may stop; the world stays as the computation left it. -/
abbrev Run := EStateM Fault World

def onHeap {α : Type} (f : Heap → α × Heap) : Run α :=
  modifyGet (fun w =>
    let heap := w.heap
    let w := { w with heap := .empty }
    let (a, heap) := f heap
    (a, { w with heap := heap }))

def treeOf (d : Datum) : Run Nbt := do
  match (← get).heap.tree? Heap.depthLimit d with
  | some t => return t
  | none => throw .tooDeep

/-- The data at a path of a storage as a tree; the empty path stands for the whole storage, which is
empty if it was never used. -/
def dataTree (id : String) (path : Path) : Run (Option Nbt) := do
  let w ← get
  if path.isEmpty && !w.storages.contains id then return some (.compound [])
  match w.find? id path with
  | some d => return some (← treeOf d)
  | none => return none

end ScoreWasm.Machine
