import ScoreWasm.Proofs.Machine.Steps

/-!
# Routines

What a run of functions does to a world, whether the program is strict or not.  `Runs` says that frames are carried
out within a number of commands until others stand in their place, whatever is below them.  There is one rule for each
thing that a step can do: go on, call a function, or go on elsewhere.  `Ends` is about the steps of a whole function,
and `Enters` about a function by its name.
-/

namespace ScoreWasm.Machine

variable {p : Program} {fs gs hs : List Frame} {f g : Frame} {w w1 w2 : World} {k l : Nat} {Q R : World → Prop}
  {name callee line : String} {s : Step} {rest : List Step} {args a : Option Entries} {c : Command} {x : Option Int}

/-- Frames are carried out within a number of commands until others stand in their place, and leave a world with a
property. -/
def Runs (p : Program) (fs gs : List Frame) (w : World) (k : Nat) (Q : World → Prop) : Prop :=
  ∀ top below value, ∃ n ≤ k, ∃ value' w', Q w' ∧
    ∀ fuel, loop p top (n + fuel) (fs ++ below) value w = loop p top fuel (gs ++ below) value' w'

/-- The steps of a function are carried out to their end. -/
def Ends (p : Program) (args : Option Entries) (ss : List Step) (w : World) (k : Nat) (Q : World → Prop) : Prop :=
  ∀ name, Runs p [⟨name, ss, args, []⟩] [] w k Q

/-- The world after a function has been entered. -/
def World.entering (w : World) (name : String) : World :=
  { w with entered := w.entered.insert name (w.timesEntered name + 1) }

/-- A call ends in `Q` within `k` commands. -/
def Enters (p : Program) (name : String) (args : Option Entries) (w : World) (k : Nat) (Q : World → Prop) : Prop :=
  ∃ f, p.functions[name]? = some f ∧ (args.isNone && f.needsArguments) = false ∧ Ends p args f.steps (w.entering name) k Q

/-- The next command of a frame, and what is left of the frame. -/
def Fetches (f : Frame) (w : World) (line : String) (c : Command) (g : Frame) : Prop :=
  ∀ strict below, fetch strict (f :: below) w = .ok (some (line, .ok c, g, below)) w.counted

theorem fetches_command : Fetches ⟨name, .command line (.ok c) :: rest, args, []⟩ w line c ⟨name, rest, args, []⟩ :=
  fun _ _ => rfl

theorem fetches_template {segments : List Segment} {entries : Entries}
    (hfill : fillTemplate name entries segments "" w = .ok line w) (hparse : parseCommand line = .ok c) :
    Fetches ⟨name, .template segments :: rest, some entries, []⟩ w line c ⟨name, rest, some entries, []⟩ := by
  intro strict below
  have hsettle : settle strict (⟨name, .template segments :: rest, some entries, []⟩ :: below) w = .ok _ w := rfl
  unfold fetch
  rw [bind_ok hsettle]
  dsimp only
  rw [Option.getD_some, bind_ok hfill, hparse]
  rfl

theorem enter_eq {f : Function} (hf : p.functions[callee]? = some f) (ha : (a.isNone && f.needsArguments) = false) :
    enter p callee a [] w = .ok ⟨callee, f.steps, a, []⟩ (w.entering callee) := by
  unfold enter
  simp only [hf, ha, Bool.false_eq_true, if_false]
  rfl

namespace Runs

theorem mono (h : Runs p fs gs w k R) (hk : k ≤ l := by omega)
    (hQ : ∀ w', R w' → Q w' := by exact fun _ h => h) : Runs p fs gs w l Q := by
  intro top below value
  obtain ⟨n, hn, value', w', hR, hrun⟩ := h top below value
  exact ⟨n, hn.trans hk, value', w', hQ w' hR, hrun⟩

theorem refl (h : Q w) : Runs p fs fs w 0 Q :=
  fun _ _ value => ⟨0, Nat.le_refl 0, value, w, h, fun fuel => by rw [Nat.zero_add]⟩

theorem trans (h : Runs p fs gs w k R) (h' : ∀ w', R w' → Runs p gs hs w' l Q) : Runs p fs hs w (k + l) Q := by
  intro top below value
  obtain ⟨m, hm, value1, w1, hR, hrun1⟩ := h top below value
  obtain ⟨n, hn, value2, w2, hQ, hrun2⟩ := h' w1 hR top below value1
  refine ⟨m + n, Nat.add_le_add hm hn, value2, w2, hQ, fun fuel => ?_⟩
  rw [Nat.add_assoc, hrun1, hrun2]

/-- Frames below stay as they are. -/
theorem above (h : Runs p fs gs w k Q) (below : List Frame) : Runs p (fs ++ below) (gs ++ below) w k Q := by
  intro top more value
  rw [List.append_assoc, List.append_assoc]
  exact h top (below ++ more) value

/-- A function that has nothing left to do. -/
theorem ended (h : Q w) : Runs p [⟨name, [], args, []⟩] [] w 0 Q := by
  refine fun top below value => ⟨0, Nat.le_refl 0, value, w, h, fun fuel => ?_⟩
  have hfetch : fetch p.strict ([⟨name, [], args, []⟩] ++ below) = fetch p.strict below := rfl
  rw [Nat.zero_add]
  cases fuel <;> rw [loop, loop, hfetch] <;> rfl

/-- One command, after which other frames are there. -/
theorem step {control : Control} {t : List Frame} (hfetch : Fetches f w line c g) (hexec : exec p line c w.counted = .ok ⟨x, control⟩ w1)
    (hfollow : ∀ below value, follow p g below value control w1 = .ok (t ++ below, value) w2) (h : Q w2) :
    Runs p [f] t w 1 Q := by
  refine fun top below value => ⟨1, Nat.le_refl 1, value, w2, h, fun fuel => ?_⟩
  rw [Nat.add_comm, loop_succ, List.singleton_append, bind_ok (hfetch p.strict below)]
  show ((exec p line c >>= fun out => follow p g below value out.control) >>= _) w.counted = _
  rw [bind_assoc, bind_ok hexec, bind_ok (hfollow below value)]

theorem next (hfetch : Fetches f w line c g) (hexec : exec p line c w.counted = .ok ⟨x, .next⟩ w1)
    (h : Q w1) : Runs p [f] [g] w 1 Q :=
  step hfetch hexec (fun _ _ => rfl) h

/-- A command that calls a function. -/
theorem call {u : World} (hexec : exec p line c w.counted = .ok ⟨x, .invoke ⟨callee, a, false, []⟩⟩ u)
    (hbody : Enters p callee a u k Q) :
    Runs p [⟨name, .command line (.ok c) :: rest, args, []⟩] [⟨name, rest, args, []⟩] w (k + 1) Q := by
  obtain ⟨f, hf, ha, hbody⟩ := hbody
  rw [Nat.add_comm]
  refine (step fetches_command hexec (fun below value => ?_)
    rfl).trans (by rintro _ rfl; exact (hbody callee).above [⟨name, rest, args, []⟩])
  unfold follow
  simp only [Bool.false_eq_true, if_false]
  rw [bind_ok (enter_eq hf ha)]
  rfl

section Jump

variable (hexec : exec p line c w.counted = .ok ⟨x, .invoke ⟨callee, a, true, []⟩⟩ w1)

include hexec

/-- A command that puts another function in the place of its own. -/
theorem enter {f : Function} (hf : p.functions[callee]? = some f) (ha : (a.isNone && f.needsArguments) = false) :
    Runs p [⟨name, .command line (.ok c) :: rest, args, []⟩] [⟨callee, f.steps, a, []⟩] w 1 (· = w1.entering callee) := by
  refine step fetches_command hexec (fun below value => ?_) rfl
  unfold follow
  simp only [if_true]
  rw [bind_ok (enter_eq hf ha)]
  rfl

/-- A command that goes on in another function. -/
theorem jump (hbody : Enters p callee a w1 k Q) :
    Runs p [⟨name, .command line (.ok c) :: rest, args, []⟩] [] w (k + 1) Q := by
  obtain ⟨f, hf, ha, hbody⟩ := hbody
  rw [Nat.add_comm]
  exact (enter hexec hf ha).trans (by rintro _ rfl; exact hbody callee)

end Jump

end Runs

/-- **A function that is carried out to its end gives a result.** -/
theorem Enters.run (h : Enters p name args w k Q) (hk : k ≤ p.maxCommands.toNat) :
    ∃ x w', runFunction p name args w = .ok x w' ∧ Q w' := by
  obtain ⟨f, hf, ha, h⟩ := h
  obtain ⟨n, hn, value, w', hQ, hrun⟩ := h name name [] (some 0)
  refine ⟨value, w', ?_, hQ⟩
  rw [runFunction, bind_ok (enter_eq hf ha), ← Nat.add_sub_cancel' (hn.trans hk)]
  refine (hrun _).trans ?_
  cases p.maxCommands.toNat - n <;> rfl

end ScoreWasm.Machine
