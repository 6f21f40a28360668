/-!
# Indices

An index counts from the first element, and a negative one from behind the last, so that −1 is the
last element.  Bounds of a slice count in the same way and are moved into the list.
-/

namespace ScoreWasm

/-- The position that an index denotes in a list of a length, counting from the end if negative. -/
def position? (size : Nat) (i : Int) : Option Nat :=
  if 0 ≤ i then if i < size then some i.toNat else none
  else if -(size : Int) ≤ i then some (size + i).toNat else none

def elementAt? {α : Type} (l : List α) (i : Int) : Option α :=
  (position? l.length i).bind (fun n => l[n]?)

def bound (size : Nat) (i : Int) : Nat :=
  if 0 ≤ i then min i.toNat size else size - (-i).toNat

def slice {α : Type} (l : List α) (start stop : Int) : List α :=
  (l.take (bound l.length stop)).drop (bound l.length start)

theorem position?_lt {size : Nat} {i : Int} {n : Nat} (h : position? size i = some n) :
    n < size := by
  unfold position? at h
  split at h
  · split at h
    · cases h; omega
    · cases h
  · split at h
    · cases h; omega
    · cases h

theorem position?_ofNat (size n : Nat) :
    position? size n = if n < size then some n else none := by
  simp [position?]

theorem elementAt?_ofNat {α : Type} (l : List α) (n : Nat) : elementAt? l n = l[n]? := by
  unfold elementAt?
  rw [position?_ofNat]
  split <;> simp_all

theorem mem_of_elementAt? {α : Type} {l : List α} {i : Int} {a : α} (h : elementAt? l i = some a) :
    a ∈ l := by
  obtain ⟨n, -, hn⟩ := Option.bind_eq_some_iff.mp h
  exact List.mem_of_getElem? hn

end ScoreWasm
