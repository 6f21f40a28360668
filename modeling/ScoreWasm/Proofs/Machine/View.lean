import ScoreWasm.Command.Register
import ScoreWasm.Proofs.Machine.Routine
import ScoreWasm.Proofs.Machine.Scores
import ScoreWasm.Proofs.Number.Exact

/-!
# What a world shows

Worlds as a reader thinks of them: scores are a function, storages hold trees.  A world shows such a view, and what
commands do to scores and data can be told from it.
-/

namespace ScoreWasm.Machine

open Std Word

/-- A world without addresses. -/
structure View where
  objectives : List String
  scores : Score → Option Int
  stores : Storages
  blocks : HashMap BlockPos String
  scheduled : List Scheduled
  chat : Array String
  entered : String → Nat
  time : Int

/-- A world is one that a view stands for. -/
structure Shows (w : World) (v : View) : Prop where
  objectives : w.scores.objectives = v.objectives
  scores : ∀ s, w.scores.get? s = v.scores s
  holds : Holds w v.stores
  blocks : w.blocks = v.blocks
  scheduled : w.scheduled = v.scheduled
  chat : w.chat = v.chat
  entered : ∀ name, w.timesEntered name = v.entered name
  time : w.time = v.time

/-! ### Registers of a view -/

namespace View

variable {r s : Reg} {x : Int}

/-- The value of a register, if it is set. -/
def reg (v : View) (r : Reg) : Option Int := v.scores r.score

/-- The view with another value of a register. -/
def put (v : View) (r : Reg) (i : Int) : View := { v with scores := Function.update v.scores r.score (some i) }

/-- One more call of the function. -/
def entering (v : View) (name : String) : View :=
  { v with entered := Function.update v.entered name (v.entered name + 1) }

/-- The view with other storages. -/
def withStores (v : View) (σ : Storages) : View := { v with stores := σ }

/-- The objective of the registers exists. -/
def Live (v : View) : Prop := v.objectives.contains objective = true

theorem score_ne_of_name_ne (h : r.name ≠ s.name) : r.score ≠ s.score :=
  fun heq => h (congrArg Score.holder heq)

theorem score_inj : r.score = s.score ↔ r.name = s.name :=
  ⟨congrArg Score.holder, fun h => by unfold Reg.score; rw [h]⟩

theorem reg_put (v : View) (r s : Reg) (i : Int) : (v.put r i).reg s = if s.name = r.name then some i else v.reg s := by
  by_cases h : s.name = r.name
  · rw [if_pos h, View.reg, score_inj.mpr h]
    exact Function.update_self ..
  · rw [if_neg h]
    exact Function.update_of_ne (score_ne_of_name_ne h) ..

@[simp] theorem reg_put_self (v : View) (r : Reg) (i : Int) : (v.put r i).reg r = some i :=
  Function.update_self ..

theorem reg_put_of_ne {v : View} (i : Int) (h : s.name ≠ r.name) : (v.put r i).reg s = v.reg s :=
  Function.update_of_ne (score_ne_of_name_ne h) ..

theorem put_self {v : View} (h : v.reg r = some x) : v.put r x = v := by
  unfold View.put
  rw [← show v.scores r.score = some x from h, Function.update_eq_self]

theorem scores_of_reg {v : View} (h : v.reg r = some x) : v.scores r.score = some x := h

@[simp] theorem put_stores (v : View) (r : Reg) (i : Int) : (v.put r i).stores = v.stores := rfl

@[simp] theorem entering_reg (v : View) (name : String) (r : Reg) : (v.entering name).reg r = v.reg r := rfl

@[simp] theorem entering_stores (v : View) (name : String) : (v.entering name).stores = v.stores := rfl

@[simp] theorem withStores_reg (v : View) (σ : Storages) (r : Reg) : (v.withStores σ).reg r = v.reg r := rfl

@[simp] theorem withStores_stores (v : View) (σ : Storages) : (v.withStores σ).stores = σ := rfl

/-- Registers can be written, and all that is written is a word. -/
structure Sane (v : View) : Prop where
  live : v.Live
  words : ∀ s i, v.scores s = some i → IsWord i

variable {v : View}

theorem Sane.put (h : v.Sane) (r : Reg) {i : Int} (hi : IsWord i) : (v.put r i).Sane := by
  refine ⟨h.live, fun s j hs => ?_⟩
  by_cases hrs : s = r.score
  · subst hrs
    rw [show (v.put r i).scores r.score = some i from Function.update_self ..] at hs
    cases hs
    exact hi
  · rw [show (v.put r i).scores s = v.scores s from Function.update_of_ne hrs ..] at hs
    exact h.words s j hs

theorem Sane.reg (h : v.Sane) (hx : v.reg r = some x) : IsWord x := h.words _ _ hx

theorem Sane.entering (h : v.Sane) (name : String) : (v.entering name).Sane := ⟨h.live, h.words⟩

theorem Sane.withStores (h : v.Sane) (σ : Storages) : (v.withStores σ).Sane := ⟨h.live, h.words⟩

end View

/-! ### Changes of a world -/

variable {w w' : World} {v : View} {σ : Storages} {t : Nbt}

theorem Holds.of_same (h : Holds w σ) (hh : w'.heap = w.heap) (hs : w'.storages = w.storages) : Holds w' σ := by
  obtain ⟨P, h⟩ := h
  refine ⟨P, h.frame hs ?_ ?_⟩
  · intro i
    rw [hh]
    exact .refl _ _
  · rw [hh]

namespace Shows

section

variable (h : Shows w v)
include h

theorem counted : Shows w.counted v := { h with holds := h.holds.of_same rfl rfl }

theorem put (r : Reg) (i : Int) : Shows { w with scores := w.scores.set r.score i } (v.put r (wrap32 i)) := by
  refine { h with scores := fun s => ?_, holds := h.holds.of_same rfl rfl }
  show _ = Function.update v.scores r.score (some (wrap32 i)) s
  rw [Scoreboard.get?_set, h.scores, Function.update_apply]
  simp only [eq_comm]

theorem entering (name : String) : Shows (w.entering name) (v.entering name) := by
  refine { h with entered := fun n => ?_, holds := h.holds.of_same rfl rfl }
  show (w.entered.insert name (w.timesEntered name + 1)).getD n 0 = Function.update v.entered name (v.entered name + 1) n
  rw [HashMap.getD_insert, h.entered, Function.update_apply, ← h.entered n]
  simp only [beq_iff_eq, eq_comm (a := n)]
  rfl

/-- Only the data of the world has changed. -/
theorem data (hod : OnlyData w w') (hh : Holds w' σ) : Shows w' (v.withStores σ) where
  objectives := by rw [hod.scores]; exact h.objectives
  scores := by rw [hod.scores]; exact h.scores
  holds := hh
  blocks := hod.blocks.trans h.blocks
  scheduled := hod.scheduled.trans h.scheduled
  chat := hod.chat.trans h.chat
  entered := by
    intro name
    rw [World.timesEntered, hod.entered]
    exact h.entered name
  time := hod.time.trans h.time

theorem put? (hv : v.Live) (r : Reg) (i : Int) : w.scores.put? r.score i = some (w.scores.set r.score i) :=
  if_pos (by rw [Scoreboard.has, h.objectives]; exact hv)

/-- The data at a place, as a world has it. -/
theorem find? {id : String} {s : PathStep} {rest : Path} (hfind : v.stores.find? id (s :: rest) = some t) :
    ∃ d B, w.find? id (s :: rest) = some d ∧ Heap.Stands w.heap t d B := by
  obtain ⟨P, hP⟩ := h.holds
  rcases hP.find? id s rest with ⟨-, hnone⟩ | ⟨d, t', B, hd, ht, -, hs⟩
  · rw [hfind] at hnone
    cases hnone
  · rw [hfind] at ht
    cases ht
    exact ⟨d, B, hd, hs⟩

end

end Shows

-- From here on views are told apart by their registers and storages only.
attribute [irreducible] View.put View.reg View.entering View.withStores

/-! ### Templates -/

/-- A line with placeholders, filled in with entries that are no containers. -/
def filled? (es : List (String × Nbt)) : List Segment → String → Option String
  | [], acc => some acc
  | .text s :: rest, acc => filled? es rest (acc ++ s)
  | .hole key :: rest, acc => (Nbt.named? key es).bind fun t =>
    if t.isContainer then none else filled? es rest (acc ++ holeText t.outline)

section Templates

variable {es : List (String × Nbt)} {a : Nat} {S : Set Nat} (hs : Heap.Stands w.heap (.compound es) (.ref a) S)

include hs

theorem argumentNow_eq {key : String} (hkey : Nbt.named? key es = some t) (ht : t.isContainer = false)
    (function : String) : argumentNow function key (.stored a) w = .ok t.outline w := by
  have hlookup : Nbt.lookup [.key key] (.compound es) = some t := by
    show (Nbt.named? key es).bind some = _
    rw [hkey]
    rfl
  rcases @Heap.Stands.lookup _ _ _ _ [.key key] hs with ⟨-, hnone⟩ | ⟨d, t', B, hd, ht', -, hstands⟩
  · rw [hlookup] at hnone
    cases hnone
  obtain rfl : t = t' := Option.some.inj (hlookup.symm.trans ht')
  have htree : treeOf d w = .ok t w := by
    unfold treeOf
    rw [bind_get, hstands.tree? (by cases t <;> trivial)]
    rfl
  cases hs with
  | @compound _ _ ds _ _ _ hget =>
    have hnamed : Nbt.named? key ds = some d := by
      have hc : w.heap.container? (.ref a) = some (.compound ds) := hget
      simp only [Heap.lookup, hc, Option.bind_some, Container.child?] at hd
      obtain ⟨e, he, hd⟩ := Option.bind_eq_some_iff.mp hd
      cases hd
      exact he
    rw [argumentNow, bind_get]
    simp only [hget, hnamed]
    rw [bind_ok htree]
    rfl

theorem fillTemplate_eq {segments : List Segment} {acc line : String} (h : filled? es segments acc = some line)
    (name : String) : fillTemplate name (.stored a) segments acc w = .ok line w := by
  induction segments generalizing acc with
  | nil =>
    cases h
    rfl
  | cons s rest ih =>
    cases s with
    | text s => exact ih h
    | hole key =>
      obtain ⟨t, hkey, h⟩ := Option.bind_eq_some_iff.mp h
      split at h
      next => cases h
      next ht =>
        rw [fillTemplate, bind_ok (argumentNow_eq hs hkey (by simpa using ht) name)]
        exact ih h

end Templates

end ScoreWasm.Machine
