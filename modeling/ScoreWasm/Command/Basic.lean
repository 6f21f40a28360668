import ScoreWasm.Data.Nbt
import ScoreWasm.Data.Path
import ScoreWasm.Json.Basic

/-!
# Commands

The commands of the game that a compiled program needs, as data.  A score is a number that a
holder has under an objective; a storage is a tree of data with a name; a block stands at a
position of the world.
-/

namespace ScoreWasm

structure Score where
  holder : String
  objective : String
  deriving DecidableEq, Hashable, Repr

/-- A range of integers, open at the sides that are missing. -/
structure Range where
  lo : Option Int
  hi : Option Int
  deriving DecidableEq, Repr

namespace Range

def exactly (i : Int) : Range := ⟨some i, some i⟩

def atLeast (i : Int) : Range := ⟨some i, none⟩

def atMost (i : Int) : Range := ⟨none, some i⟩

def between (lo hi : Int) : Range := ⟨some lo, some hi⟩

def contains (r : Range) (i : Int) : Bool :=
  (match r.lo with | some lo => decide (lo ≤ i) | none => true)
    && (match r.hi with | some hi => decide (i ≤ hi) | none => true)

end Range

inductive ScoreOp where
  | assign
  | add
  | sub
  | mul
  | div
  | mod
  | min
  | max
  | swap
  | other (sign : String)
  deriving DecidableEq, Repr

inductive Comparison where
  | lt
  | le
  | eq
  | gt
  | ge
  | other (sign : String)
  deriving DecidableEq, Repr

structure BlockPos where
  x : Int
  y : Int
  z : Int
  deriving DecidableEq, Hashable, Repr

/-- How a number is stored as data: an integer of a width, or by another name a floating-point
number. -/
inductive StoreKind where
  | byte
  | short
  | int
  | long
  | other (name : String)
  deriving DecidableEq, Repr

/-- Which of a command's two outcomes a store keeps. -/
inductive StoreMode where
  | result
  | success
  deriving DecidableEq, Repr

inductive StoreTarget where
  | score (s : Score)
  | data (storage : String) (path : Path) (kind : StoreKind) (scale : Binary64)
  deriving DecidableEq, Repr

structure Store where
  mode : StoreMode
  target : StoreTarget
  deriving DecidableEq, Repr

inductive Test where
  | within (s : Score) (range : Range)
  | compare (a : Score) (op : Comparison) (b : Score)
  | block (pos : BlockPos) (id : String)
  | data (storage : String) (path : Path)
  deriving DecidableEq, Repr

inductive Clause where
  | holds (t : Test)
  | fails (t : Test)
  | store (s : Store)
  deriving DecidableEq, Repr

/-- Where the arguments of a function with placeholders come from. -/
inductive Arguments where
  | storage (id : String) (path : Path)
  | inline (entries : List (String × Nbt))

inductive Source where
  | value (v : Nbt)
  | words (ws : List Int)
  | place (storage : String) (path : Path)

inductive CloneMode where
  | replace
  | masked
  deriving DecidableEq, Repr

inductive Command where
  | addObjective (name : String)
  | setScore (s : Score) (value : Int)
  | addScore (s : Score) (amount : Int)
  | getScore (s : Score)
  | resetScore (holder : String) (objective : Option String)
  | operate (target : Score) (op : ScoreOp) (source : Score)
  | check (clauses : List Clause)
  | execute (clauses : List Clause) (body : Command)
  | function (name : String) (args : Option Arguments)
  | ret (value : Option Int)
  | retRun (body : Command)
  | getData (storage : String) (path : Path) (scale : Binary64)
  | removeData (storage : String) (path : Path)
  | setData (storage : String) (path : Path) (source : Source)
  | appendData (storage : String) (path : Path) (source : Source)
  | schedule (name : String) (ticks : Int) (mode : String)
  | unschedule (name : String)
  | tell (component : Json)
  | random (range : Range)
  | setBlock (pos : BlockPos) (id : String)
  | fill (a b : BlockPos) (id : String)
  | clone (a b dest : BlockPos) (mode : CloneMode)

end ScoreWasm
