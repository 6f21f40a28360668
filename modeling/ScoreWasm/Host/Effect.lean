import Std.Data.HashMap
import ScoreWasm.Command.Basic
import ScoreWasm.Turtle.Palette
import ScoreWasm.Wasm.Trap

/-!
# What the built-in host functions do

The built-in host functions without any commands: each one changes a small state that holds what was
printed, the turtle with the blocks it placed, and a memory.  Commands that stand for a host function
are right if they do the same to a world.
-/

namespace ScoreWasm.Host

open Std Wasm

inductive Stop where
  | trap (kind : Trap)
  | exit (code : Int)
  deriving DecidableEq, Repr

def Stop.text : Stop → String
  | trap kind => kind.name
  | exit code => "exit " ++ toString code

/-- What host functions work on.  There need not be a memory. -/
structure Surroundings where
  output : List Int
  chars : List Int
  turtle : BlockPos
  blocks : HashMap BlockPos String
  memory : Option (List UInt8)
  stopped : Option Stop

namespace Surroundings

def fresh (memory : Option (List UInt8)) : Surroundings := ⟨[], [], ⟨0, 0, 0⟩, ∅, memory, none⟩

def blockAt (s : Surroundings) (pos : BlockPos) : String := s.blocks.getD pos "minecraft:air"

/-- The number of the block at the turtle, or `-1`. -/
def getBlock (s : Surroundings) : Int :=
  match Turtle.palette.idxOf? (s.blockAt s.turtle) with
  | some i => i
  | none => -1

/-! ### Boxes -/

def maxVolume : Nat := 32768

def corner (s : Surroundings) (d : BlockPos) : BlockPos :=
  ⟨min s.turtle.x (s.turtle.x + d.x), min s.turtle.y (s.turtle.y + d.y),
   min s.turtle.z (s.turtle.z + d.z)⟩

def shift (a b : BlockPos) : BlockPos := ⟨a.x + b.x, a.y + b.y, a.z + b.z⟩

/-- The places in a box of the size of offsets, from its lower corner, unless they are too many. -/
def inside? (d : BlockPos) : Option (List BlockPos) :=
  let nx := d.x.natAbs + 1
  let ny := d.y.natAbs + 1
  let nz := d.z.natAbs + 1
  if maxVolume < nx * ny * nz then none
  else some ((List.range nx).flatMap (fun (x : Nat) => (List.range ny).flatMap (fun (y : Nat) =>
    (List.range nz).map (fun (z : Nat) => ⟨x, y, z⟩))))

def place (s : Surroundings) (blocks : List (BlockPos × String)) : Surroundings :=
  { s with blocks := blocks.foldl (fun m (pos, block) => m.insert pos block) s.blocks }

def fill (s : Surroundings) (index : Int) (d : BlockPos) : Surroundings :=
  match inside? d, (if 0 ≤ index then Turtle.palette[index.toNat]? else none) with
  | some offsets, some block => s.place (offsets.map (fun o => (shift (s.corner d) o, block)))
  | _, _ => s

def clipboard : BlockPos :=
  let at_ (axis : String) : Int := (Turtle.clipboard.lookup axis).getD 0
  ⟨at_ "x", at_ "y", at_ "z"⟩

/-- Copies a box to the clipboard; all blocks are read before any is put. -/
def copyBox (s : Surroundings) (d : BlockPos) : Surroundings :=
  match inside? d with
  | some offsets =>
    s.place (offsets.map (fun o => (shift clipboard o, s.blockAt (shift (s.corner d) o))))
  | none => s

/-- Copies a box of the clipboard to the lower corner of a box, perhaps without its air. -/
def pasteBox (s : Surroundings) (masked : Bool) (d : BlockPos) : Surroundings :=
  match inside? d with
  | some offsets =>
    let blocks := offsets.map (fun o => (shift (s.corner d) o, s.blockAt (shift clipboard o)))
    s.place (blocks.filter (fun b => !(masked && b.2 == "minecraft:air")))
  | none => s

/-! ### Memory -/

def stop (s : Surroundings) (why : Stop) : Except Stop (Option Int) × Surroundings :=
  (.error why, { s with stopped := some why })

def fillBytes (bytes : List UInt8) (start count : Nat) (v : UInt8) : List UInt8 :=
  bytes.take start ++ List.replicate count v ++ bytes.drop (start + count)

/-- Sets bytes of memory and gives their address, if all of them exist. -/
def memset (s : Surroundings) (dest value length : Int) :
    Except Stop (Option Int) × Surroundings :=
  let bytes := s.memory.getD []
  let start := (dest.emod (2 ^ 32)).toNat
  let count := (length.emod (2 ^ 32)).toNat
  if bytes.length < start + count then s.stop (.trap .outOfBounds)
  else
    let v := UInt8.ofNat (value.emod 256).toNat
    (.ok (some dest),
      { s with memory := s.memory.map (fun bytes => fillBytes bytes start count v) })

/-! ### Calls -/

/-- Calls the host function with a key: its result or the reason to stop, and the new state.  There is
none if no host function has the key, or if it takes other arguments; the number of `env.rand` is
always the least one. -/
def perform? (s : Surroundings) (key : String) (args : List Int) :
    Option (Except Stop (Option Int) × Surroundings) :=
  let done (s : Surroundings) : Option (Except Stop (Option Int) × Surroundings) := some (.ok none, s)
  let gives (i : Int) : Option (Except Stop (Option Int) × Surroundings) := some (.ok (some i), s)
  match key, args with
  | "env.print", [v] => done { s with output := s.output ++ [v] }
  | "env.print_i64", [v] => done { s with output := s.output ++ [v] }
  | "env.putc", [v] => done { s with chars := s.chars ++ [v] }
  | "env.rand", [] => gives 0
  | "env.turtle_x", [v] => done { s with turtle := { s.turtle with x := v } }
  | "env.turtle_y", [v] => done { s with turtle := { s.turtle with y := v } }
  | "env.turtle_z", [v] => done { s with turtle := { s.turtle with z := v } }
  | "env.turtle_set_block", [i] => done (s.fill i ⟨0, 0, 0⟩)
  | "env.turtle_get_block", [] => gives s.getBlock
  | "env.turtle_fill", [i, x, y, z] => done (s.fill i ⟨x, y, z⟩)
  | "env.turtle_copy", [] => done (s.copyBox ⟨0, 0, 0⟩)
  | "env.turtle_paste", [] => done (s.pasteBox false ⟨0, 0, 0⟩)
  | "env.turtle_copy_region", [x, y, z] => done (s.copyBox ⟨x, y, z⟩)
  | "env.turtle_paste_region_masked", [x, y, z] => done (s.pasteBox true ⟨x, y, z⟩)
  | "env.memset", [dest, value, length] => some (s.memset dest value length)
  | "wasi_snapshot_preview1.proc_exit", [code] => some (s.stop (.exit code))
  | _, _ => none

end Surroundings

end ScoreWasm.Host
