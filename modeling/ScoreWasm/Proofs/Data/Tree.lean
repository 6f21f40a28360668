import ScoreWasm.Data.Heap

/-!
# Editing trees

What paths do to a tree of stored data, with no addresses in between: `lookup` follows a path, `assign`
writes at its end and makes the compounds that are missing on the way.  The entry of a compound under a
name is found through its position, so that two compounds with the same names are edited at the same
position.
-/

namespace ScoreWasm.Nbt

open List

/-! ### Positions of names -/

section Entries

variable {α β : Type} {es : List (String × α)} {name : String} {v : α}

/-- The position of the entry under a name; behind the last entry if there is none. -/
def place (name : String) (es : List (String × α)) : Nat := (es.map Prod.fst).idxOf name

theorem place_cons (name : String) (e : String × α) (es : List (String × α)) :
    place name (e :: es) = if e.1 == name then 0 else place name es + 1 := by
  simp [place, idxOf_cons]

theorem named?_eq (name : String) (es : List (String × α)) : named? name es = (es.map Prod.snd)[place name es]? := by
  induction es with
  | nil => rfl
  | cons e es ih =>
    rw [place_cons, named?, ih]
    split <;> rfl

/-- A list with another value at one position, which may be the one behind its end. -/
def SetAt {β : Type} (i : Nat) (v : β) (xs ys : List β) : Prop := ys[i]? = some v ∧ ∀ j, j ≠ i → ys[j]? = xs[j]?

theorem setAt_set {i : Nat} {xs : List β} (h : i < xs.length) (v : β) : SetAt i v xs (xs.set i v) :=
  ⟨getElem?_set_self h, fun _ hj => getElem?_set_ne (Ne.symm hj)⟩

theorem setAt_append (xs : List β) (v : β) : SetAt xs.length v xs (xs ++ [v]) := by
  refine ⟨getElem?_concat_length, fun j hj => ?_⟩
  rw [getElem?_append]
  split
  · rfl
  · rw [getElem?_eq_none (by simp; omega), getElem?_eq_none (by omega)]

theorem setAt_setEntry (name : String) (v : α) (es : List (String × α)) :
    SetAt (place name es) v (es.map Prod.snd) ((setEntry name v es).map Prod.snd) := by
  induction es with
  | nil => exact setAt_append [] v
  | cons e es ih =>
    rw [place_cons, setEntry]
    split
    · exact setAt_set (by simp) v
    · refine ⟨ih.1, fun j hj => ?_⟩
      cases j with
      | zero => rfl
      | succ j => exact ih.2 j fun h => hj (congrArg (· + 1) h)

theorem keys_setEntry (name : String) (v : α) (es : List (String × α)) : (setEntry name v es).map Prod.fst =
      if name ∈ es.map Prod.fst then es.map Prod.fst else es.map Prod.fst ++ [name] := by
  induction es with
  | nil => rfl
  | cons e es ih =>
    rw [setEntry]
    by_cases hk : e.1 = name
    · simp [hk]
    · simp only [beq_iff_eq, hk, if_false, map_cons, ih, mem_cons, Ne.symm hk, false_or]
      split <;> rfl

theorem named?_setEntry (name other : String) (v : α) (es : List (String × α)) :
    named? other (setEntry name v es) = if name == other then some v else named? other es := by
  induction es with
  | nil => rfl
  | cons e es ih =>
    obtain ⟨k, old⟩ := e
    rw [setEntry]
    by_cases hk : (k == name) = true
    · rw [if_pos hk]
      have hk := eq_of_beq hk
      subst hk
      by_cases ho : (k == other) = true <;> simp [named?, ho]
    · rw [if_neg hk]
      by_cases ho : (k == other) = true
      · have : (name == other) = false := by
          have ho := eq_of_beq ho
          subst ho
          rw [beq_eq_false_iff_ne]
          rintro rfl
          simp at hk
        simp [named?, ho, this]
      · simp only [named?, if_neg ho, ih]

end Entries

/-! ### Steps -/

/-- The part a step leads to. -/
def child? : PathStep → Nbt → Option Nbt
  | .index i, .list items => (position? items.size i).bind (items[·]?)
  | .key k, .compound es => named? k es
  | _, _ => none

/-- Whether a value can be put where a step leads to. -/
def accepts : PathStep → Nbt → Bool
  | .index i, .list items => (position? items.size i).isSome
  | .key _, .compound _ => true
  | _, _ => false

/-- Puts a value where a step leads to; nothing changes if it cannot be put there. -/
def put (v : Nbt) : PathStep → Nbt → Nbt
  | .index i, .list items =>
    match position? items.size i with
    | some k => .list (items.setIfInBounds k v)
    | none => .list items
  | .key k, .compound es => .compound (setEntry k v es)
  | _, t => t

/-! ### Paths -/

/-- The part a path leads to. -/
def lookup : Path → Nbt → Option Nbt
  | [], t => some t
  | s :: rest, t => (t.child? s).bind (lookup rest)

/-- Writes a value at a path; the flag says whether the path could be followed. -/
def assign (v : Nbt) : Path → Nbt → Bool × Nbt
  | [], t => (false, t)
  | [s], t => (t.accepts s, put v s t)
  | s :: next :: rest, t =>
    match t.child? s with
    | some c => ((assign v (next :: rest) c).1, put (assign v (next :: rest) c).2 s t)
    | none =>
      match s, next, t with
      | .key _, .key _, .compound _ =>
        ((assign v (next :: rest) (.compound [])).1, put (assign v (next :: rest) (.compound [])).2 s t)
      | _, _, _ => (false, t)

/-- Appends to the list at a path; the flag says whether there is one. -/
def appendAt (v : Nbt) : Path → Nbt → Bool × Nbt
  | [], .list items => (true, .list (items.push v))
  | [], t => (false, t)
  | s :: rest, t =>
    match t.child? s with
    | some c => ((appendAt v rest c).1, put (appendAt v rest c).2 s t)
    | none => (false, t)

/-! ### Entries of a compound

A path that starts with a name edits the entry under it and no other. -/

/-- What writing at the rest of a path does to an entry; the flag says whether the path could be
followed. -/
def assignEntry (v : Nbt) : Path → Option Nbt → Bool × Option Nbt
  | [], _ => (true, some v)
  | next :: rest, some c => ((assign v (next :: rest) c).1, some (assign v (next :: rest) c).2)
  | .key l :: rest, none =>
    ((assign v (.key l :: rest) (.compound [])).1, some (assign v (.key l :: rest) (.compound [])).2)
  | .index _ :: _, none => (false, none)

/-- The entries with a new value for a key, if there is one. -/
def withEntry (k : String) (es : List (String × Nbt)) : Option Nbt → List (String × Nbt)
  | some c => setEntry k c es
  | none => es

theorem assign_compound (v : Nbt) (k : String) (rest : Path) (es : List (String × Nbt)) :
    assign v (.key k :: rest) (.compound es) = ((assignEntry v rest (named? k es)).1,
        .compound (withEntry k es (assignEntry v rest (named? k es)).2)) := by
  cases rest with
  | nil => rfl
  | cons next rest =>
    cases hk : named? k es with
    | some c => simp only [assign, child?, hk, put, assignEntry, withEntry]
    | none =>
      cases next with
      | key l => simp only [assign, child?, hk, put, assignEntry, withEntry]
      | index i => simp only [assign, child?, hk, assignEntry, withEntry]

theorem appendAt_compound {k : String} {es : List (String × Nbt)} {items : Array Nbt}
    (h : named? k es = some (.list items)) (v : Nbt) :
    appendAt v [.key k] (.compound es) = (true, .compound (setEntry k (.list (items.push v)) es)) := by
  simp only [appendAt, child?, h, put]

/-- Assigns to a path into the entries. -/
def assignIn (v : Nbt) (es : List (String × Nbt)) : Path → Bool × List (String × Nbt)
  | .key k :: rest =>
    ((assignEntry v rest (named? k es)).1, withEntry k es (assignEntry v rest (named? k es)).2)
  | _ => (false, es)

theorem assign_eq_assignIn (v : Nbt) (es : List (String × Nbt)) (path : Path) :
    assign v path (.compound es) = ((assignIn v es path).1, .compound (assignIn v es path).2) := by
  match path with
  | [] => rfl
  | .key k :: rest => exact assign_compound v k rest es
  | [.index i] | .index i :: next :: rest => rfl

/-! ### Depth -/

/-- Whether containers are nested no deeper than a number. -/
def Within : Nat → Nbt → Prop
  | _, .int _ => True
  | _, .float _ => True
  | _, .str _ => True
  | 0, .list _ => False
  | 0, .compound _ => False
  | n + 1, .list items => ∀ t ∈ items, Within n t
  | n + 1, .compound es => ∀ e ∈ es, Within n e.2

end ScoreWasm.Nbt
