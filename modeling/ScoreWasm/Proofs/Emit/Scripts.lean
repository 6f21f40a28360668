import ScoreWasm.Emit.Script
import ScoreWasm.Machine.Program

/-!
# Scripts line by line

Properties of all lines of a script, by the shapes that scripts are put together from, and the steps of a script as a
function.
-/

namespace ScoreWasm.Emit.Script

open Machine List Script

variable {l : List Script} {s : Script} {α : Type} {P : Line → Prop}

/-- All lines of the script are so. -/
def All (P : Line → Prop) (s : Script) : Prop := ∀ l ∈ s.lines, P l

@[simp] theorem all_empty : Script.All P .empty := fun _ h => (nomatch h)

@[simp] theorem all_command {c : Command} : (command c).All P ↔ P (.command c) := by
  simp [All, command]

@[simp] theorem all_template {segments : List Segment} : (template segments).All P ↔ P (.template segments) := by
  simp [All, template]

@[simp] theorem all_append {a b : Script} : (a ++ b).All P ↔ a.All P ∧ b.All P := forall_mem_append

@[simp] theorem all_join : (join l).All P ↔ ∀ s ∈ l, s.All P := forall_mem_flatMap

@[simp] theorem all_onlyIf {b : Bool} : (onlyIf b s).All P ↔ (b = true → s.All P) := by
  unfold onlyIf
  split <;> simp_all

theorem all_join_nil : (join []).All P := by simp

theorem all_join_cons : (join (s :: l)).All P ↔ s.All P ∧ (join l).All P := by
  simp

theorem all_join_map {l : List α} {f : α → Script} : (join (l.map f)).All P ↔ ∀ a ∈ l, (f a).All P := by
  simp

theorem all_join_mapIdx {l : List α} {f : Nat → α → Script} (h : ∀ i a, (f i a).All P) :
    (join (l.mapIdx f)).All P := by
  rw [all_join]
  intro s hs
  obtain ⟨i, hi, rfl⟩ := mem_mapIdx.mp hs
  exact h _ _

/-! ### Scripts without placeholders -/

/-- The script has commands only. -/
abbrev Plain (s : Script) : Prop := s.All fun l => ∃ c, l = .command c

@[simp] theorem plain_set (r : Reg) (v : Int) : (set r v).Plain := by simp [set]

@[simp] theorem plain_operate (a : Reg) (op : ScoreOp) (b : Reg) : (operate a op b).Plain := by simp [operate, All]

@[simp] theorem plain_copy (a b : Reg) : (copy a b).Plain := by
  unfold copy
  split <;> simp

@[simp] theorem plain_add (r : Reg) (v : Int) : (add r v).Plain := by
  simp only [add]
  repeat' split
  all_goals simp

@[simp] theorem plain_call (ns path : String) : (call ns path).Plain := by simp [call]

@[simp] theorem plain_callWith (ns path storage : String) (place : Path) : (callWith ns path storage place).Plain := by
  simp [callWith]

@[simp] theorem plain_jump (ns path : String) : (jump ns path).Plain := by simp [jump]

@[simp] theorem plain_writeData (ns storage : String) (place : Path) (r : Reg) : (writeData ns storage place r).Plain := by
  simp [writeData]

@[simp] theorem plain_setData (ns storage : String) (place : Path) (v : Nbt) : (setData ns storage place v).Plain := by
  simp [setData]

@[simp] theorem plain_given {clauses : List Clause} (h : s.Plain) : (given clauses s).Plain := by
  intro l hl
  obtain ⟨l', hl', rfl⟩ := mem_map.mp hl
  obtain ⟨c, rfl⟩ := h l' hl'
  exact ⟨_, rfl⟩

/-! ### Steps -/

/-- What a function of these lines runs. -/
def steps (s : Script) : List Step := s.lines.filterMap Step.ofLine

theorem steps_append (a b : Script) : (a ++ b).steps = a.steps ++ b.steps := filterMap_append

theorem steps_join_cons (s : Script) (scripts : List Script) :
    (join (s :: scripts)).steps = s.steps ++ (join scripts).steps := by
  unfold steps join
  rw [flatMap_cons, filterMap_append]

theorem Plain.needsNoArguments (h : s.Plain) : (Function.ofLines s.lines).needsArguments = false := by
  unfold Function.ofLines
  rw [any_eq_false]
  intro l hl
  obtain ⟨c, rfl⟩ := h l hl
  simp

end ScoreWasm.Emit.Script

namespace ScoreWasm.Machine

open Emit

/-- The program has the script under a path. -/
def Program.Has (p : Program) (ns path : String) (s : Script) : Prop :=
  p.functions[inNamespace ns path]? = some (Function.ofLines s.lines)

end ScoreWasm.Machine
