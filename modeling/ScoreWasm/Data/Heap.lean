import ScoreWasm.Data.Index
import ScoreWasm.Data.Nbt
import ScoreWasm.Data.Path

/-!
# Stored data

Storages hold their lists and compounds by address, so that one of them can stand in several places:
what is written into it through one place is seen at all of them.

A copy of a value has compounds and lists of its own, with one exception: a list whose first item is
a number or a string is copied one level deep, and the containers among its other items are then shared
between the list and its copy.

Writing through a path creates the compounds that are missing on the way, and keeps those it made even
when a later step turns out to be impossible.
-/

namespace ScoreWasm

/-- A value in a container: a number, a string, or the address of another container. -/
inductive Datum where
  | int (i : Int)
  | float (x : Binary64)
  | str (s : String)
  | ref (address : Nat)
  deriving DecidableEq, Repr, Inhabited

def Datum.isContainer : Datum → Bool
  | .ref _ => true
  | _ => false

/-- A list or a compound, one level deep. -/
inductive Container where
  | list (items : Array Datum)
  | compound (entries : List (String × Datum))
  deriving Inhabited

namespace Container

def size : Container → Nat
  | list items => items.size
  | compound entries => entries.length

def child? : PathStep → Container → Option Datum
  | .index i, list items => (position? items.size i).bind (items[·]?)
  | .key k, compound entries => Nbt.named? k entries
  | _, _ => none

/-- Whether a value can be put where a step leads to: at an index that the list has, or under any name
of a compound. -/
def accepts : PathStep → Container → Bool
  | .index i, list items => (position? items.size i).isSome
  | .key _, compound _ => true
  | _, _ => false

/-- Puts a value where a step leads to; nothing changes if it cannot be put there. -/
def put (v : Datum) : PathStep → Container → Container
  | .index i, list items =>
    match position? items.size i with
    | some k => list (items.setIfInBounds k v)
    | none => list items
  | .key k, compound entries => compound (Nbt.setEntry k v entries)
  | _, c => c

/-- Removes the value that a step leads to; nothing changes if there is none. -/
def erase : PathStep → Container → Container
  | .index i, list items =>
    match position? items.size i with
    | some k => list (items.eraseIdxIfInBounds k)
    | none => list items
  | .key k, compound entries => compound (Nbt.eraseEntry k entries)
  | _, c => c

/-- Adds a value at the end of a list; a compound stays as it is. -/
def append (v : Datum) : Container → Container
  | list items => list (items.push v)
  | compound entries => compound entries

def copiesDeep : Container → Bool
  | list items => (items[0]?).any Datum.isContainer
  | compound _ => true

end Container

structure Heap where
  cells : Array Container

namespace Heap

def empty : Heap := ⟨#[]⟩

def get? (h : Heap) (address : Nat) : Option Container := h.cells[address]?

def alloc (c : Container) (h : Heap) : Nat × Heap := (h.cells.size, ⟨h.cells.push c⟩)

def update (address : Nat) (f : Container → Container) (h : Heap) : Heap :=
  ⟨h.cells.modify address f⟩

def container? (h : Heap) : Datum → Option Container
  | .ref a => h.get? a
  | _ => none

/-! ### Paths -/

def lookup (h : Heap) : Path → Datum → Option Datum
  | [], d => some d
  | s :: rest, d => ((h.container? d).bind (·.child? s)).bind (lookup h rest)

/-- The address of the container into which the last step of a path leads, and that step. -/
def target? (h : Heap) : Path → Datum → Option (Nat × PathStep)
  | [s], .ref a => some (a, s)
  | s :: rest, d => ((h.container? d).bind (·.child? s)).bind (target? h rest)
  | [], _ => none

/-- Makes the compounds that are missing on a path.  A step into a list makes none. -/
def makePath : Path → Datum → Heap → Heap
  | s :: next :: rest, .ref a, h =>
    match h.get? a with
    | none => h
    | some c =>
      match c.child? s with
      | some d => makePath (next :: rest) d h
      | none =>
        match s, next, c with
        | .key _, .key _, .compound _ =>
          let (b, h) := h.alloc (.compound [])
          makePath (next :: rest) (.ref b) (h.update a (Container.put (.ref b) s))
        | _, _, _ => h
  | _, _, h => h

/-- Writes a value at a path; the flag says whether the path could be followed. -/
def assign (path : Path) (root v : Datum) (h : Heap) : Bool × Heap :=
  let h := h.makePath path root
  match h.target? path root with
  | none => (false, h)
  | some (a, s) =>
    if (h.get? a).any (·.accepts s) then (true, h.update a (Container.put v s)) else (false, h)

def remove (path : Path) (root : Datum) (h : Heap) : Bool × Heap :=
  match h.target? path root with
  | none => (false, h)
  | some (a, s) =>
    if ((h.get? a).bind (·.child? s)).isSome then (true, h.update a (Container.erase s)) else (false, h)

/-! ### Trees

Data can be made to contain itself, and then it has no end.  Reading and copying go down to a limit and
give up below it. -/

/-- How deep data may be nested to be read or copied as a whole. -/
def depthLimit : Nat := 492

/-- The tree that a value stands for, if it ends within a depth. -/
def tree? (h : Heap) : Nat → Datum → Option Nbt
  | _, .int i => some (.int i)
  | _, .float x => some (.float x)
  | _, .str s => some (.str s)
  | 0, .ref _ => none
  | depth + 1, .ref a =>
    match h.get? a with
    | none => none
    | some (.list items) =>
      (items.toList.mapM (tree? h depth)).map (fun trees => .list trees.toArray)
    | some (.compound entries) =>
      (entries.mapM (fun (e : String × Datum) =>
        (tree? h depth e.2).map (fun t => (e.1, t)))).map .compound

mutual

def load : Nbt → Heap → Datum × Heap
  | .int i, h => (.int i, h)
  | .float x, h => (.float x, h)
  | .str s, h => (.str s, h)
  | .list ⟨items⟩, h =>
    let (data, h) := loadItems items #[] h
    let (a, h) := h.alloc (.list data)
    (.ref a, h)
  | .compound entries, h =>
    let (data, h) := loadEntries entries h
    let (a, h) := h.alloc (.compound data)
    (.ref a, h)

def loadItems : List Nbt → Array Datum → Heap → Array Datum × Heap
  | [], done, h => (done, h)
  | t :: rest, done, h =>
    let (d, h) := load t h
    loadItems rest (done.push d) h

def loadEntries : List (String × Nbt) → Heap → List (String × Datum) × Heap
  | [], h => ([], h)
  | (k, t) :: rest, h =>
    let (d, h) := load t h
    let (more, h) := loadEntries rest h
    ((k, d) :: more, h)

end

/-- Copies a value, if its copied part ends within a depth. -/
def copy? : Nat → Datum → StateT Heap Option Datum
  | 0, .ref _ => failure
  | depth + 1, .ref a => do
    match (← get).get? a with
    | none => failure
    | some c =>
      let c ← if c.copiesDeep then
          match c with
          | .list items => do pure (.list (← items.toList.mapM (copy? depth)).toArray)
          | .compound entries => do
            pure (.compound (← entries.mapM (fun (e : String × Datum) => do
              pure (e.1, ← copy? depth e.2))))
        else pure c
      Datum.ref <$> modifyGet (alloc c)
  | _, d => pure d

end Heap

namespace Nbt

mutual

/-- Whether a copy of the tree would share no container with it. -/
def copiesWhole : Nbt → Bool
  | .list ⟨items⟩ =>
    match items with
    | [] => true
    | v :: rest =>
      if v.isContainer then copiesWhole v && copiesAllWhole rest
      else rest.all (fun v => !v.isContainer)
  | .compound entries => copiesEntriesWhole entries
  | _ => true

def copiesAllWhole : List Nbt → Bool
  | [] => true
  | v :: rest => copiesWhole v && copiesAllWhole rest

def copiesEntriesWhole : List (String × Nbt) → Bool
  | [] => true
  | (_, v) :: rest => copiesWhole v && copiesEntriesWhole rest

end

end Nbt

end ScoreWasm
