import ScoreWasm.Machine.Run
import ScoreWasm.Proofs.Machine.Storage

/-!
# Command by command

A run of functions taken apart into single commands: a configuration holds the frames, the result so
far and the world, and `step` carries out one command.  The loop with a bound on the number of commands
is so many steps.
-/

namespace ScoreWasm.Machine

variable {p : Program} {frames : List Frame}

/-- Where a run of functions stands. -/
structure Config where
  frames : List Frame
  value : Option Int
  world : World

/-- What a command makes of a run: it was over already, it stops with a fault, or it goes on. -/
inductive Progress where
  | done (value : Option Int) (world : World)
  | stopped (fault : Fault) (world : World)
  | next (c : Config)

/-- The frames after a command of a frame, by what comes next. -/
def follow (p : Program) (frame : Frame) (below : List Frame) (value : Option Int)
    (control : Control) : Run (List Frame × Option Int) := do
  match control with
  | .next => return (frame :: below, value)
  | .ret v =>
    applyStores p.strict frame.stores v
    return (below, v)
  | .invoke call =>
    if call.tail then
      let entered ← enter p call.name call.args frame.stores
      return (entered :: below, value)
    else
      let entered ← enter p call.name call.args call.stores
      return (entered :: frame :: below, value)

/-- Carries out a command that was fetched, and says which frames are there afterwards. -/
def carryOut (p : Program) (line : String) (c : Except CommandFault Command) (frame : Frame)
    (below : List Frame) (value : Option Int) : Run (List Frame × Option Int) := do
  let out ← exec p line (← readable c)
  follow p frame below value out.control

/-- Fetches a command and carries it out. -/
def step (p : Program) (c : Config) : Progress :=
  match fetch p.strict c.frames c.world with
  | .error f w => .stopped f w
  | .ok none w => .done c.value w
  | .ok (some (line, command, frame, below)) w =>
    match carryOut p line command frame below c.value w with
    | .error f w => .stopped f w
    | .ok (frames, value) w => .next ⟨frames, value, w⟩

/-- A number of commands, or fewer if the run is over. -/
def steps (p : Program) : Nat → Config → Progress
  | 0, c => .next c
  | n + 1, c =>
    match step p c with
    | .next c => steps p n c
    | ended => ended

/-- How a bounded run ends after its commands have been carried out. -/
def Progress.result (p : Program) (top : String) : Progress → EStateM.Result Fault World (Option Int)
  | .done v w => .ok v w
  | .stopped f w => .error f w
  | .next c => loop p top 0 c.frames c.value c.world

theorem loop_succ (p : Program) (top : String) (n : Nat) (frames : List Frame)
    (value : Option Int) : loop p top (n + 1) frames value = (do
      match ← fetch p.strict frames with
      | none => return value
      | some (line, c, frame, below) =>
        let after ← carryOut p line c frame below value
        loop p top n after.1 after.2) := by
  rw [loop]
  congr 1
  funext fetched
  match fetched with
  | none => rfl
  | some (line, c, frame, below) =>
    simp only [carryOut, follow, bind_assoc]
    congr 1
    funext command
    congr 1
    funext out
    cases out.control with
    | next => rfl
    | ret v => simp only [bind_assoc, pure_bind]
    | invoke call =>
      by_cases ht : call.tail = true
      · simp only [if_pos ht, bind_assoc, pure_bind]
      · simp only [if_neg ht, bind_assoc, pure_bind]

/-- **A bounded run is that many steps.** -/
theorem loop_eq (p : Program) (top : String) (n : Nat) (c : Config) :
    loop p top n c.frames c.value c.world = (steps p n c).result p top := by
  induction n generalizing c with
  | zero => rfl
  | succ n ih =>
    rw [loop_succ, steps, step]
    cases hf : fetch p.strict c.frames c.world with
    | error f w => rw [bind_error hf]; rfl
    | ok fetched w =>
      rw [bind_ok hf]
      match fetched with
      | none => rfl
      | some (line, command, frame, below) =>
        dsimp only
        cases hc : carryOut p line command frame below c.value w with
        | error f w' => rw [bind_error hc]; rfl
        | ok after w' =>
          rw [bind_ok hc]
          exact ih ⟨after.1, after.2, w'⟩

/-! ### Runs -/

theorem steps_succ_next {c c' : Config} (h : step p c = .next c') (n : Nat) : steps p (n + 1) c = steps p n c' := by
  rw [steps, h]

/-- A configuration is reached from another one. -/
def Reaches (p : Program) (c c' : Config) : Prop := ∃ n, steps p n c = .next c'

/-- One more command is run. -/
def World.counted (w : World) : World := { w with commands := w.commands + 1 }

end ScoreWasm.Machine
