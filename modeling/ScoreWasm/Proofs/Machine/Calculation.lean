import ScoreWasm.Proofs.Emit.Effects

/-!
# Calculations

Arithmetic that commands alone cannot do is done by routines on scores.  What such a routine does is a function of
the scoreboard, whatever else the world holds and however strict the program is: `Completes` follows it through its
calls, and says which scores it may set.
-/

namespace ScoreWasm.Machine

open Emit Word List Option

variable {b b' : Scoreboard} {w w' : World} {p : Program} {s : Score} {i : Int}
  {clauses : List Clause} {control : Control}

/-! ### Routines -/

/-- Scores of which only some have been set. -/
structure Scoreboard.Keeps (T : List Score) (b b' : Scoreboard) : Prop where
  objectives : b'.objectives = b.objectives
  scores : ∀ s ∉ T, b'.get? s = b.get? s

section Keeps

variable {T T' : List Score} {c : Command}

theorem Scoreboard.Keeps.trans {b1 b2 b3 : Scoreboard} (h : b1.Keeps T b2) (h' : b2.Keeps T b3) : b1.Keeps T b3 :=
  ⟨h'.objectives.trans h.objectives, fun s hs => (h'.scores s hs).trans (h.scores s hs)⟩

theorem Scoreboard.Keeps.mono (h : b.Keeps T' b') (hT : T' ⊆ T) : b.Keeps T b' :=
  ⟨h.objectives, fun s hs => h.scores s fun hs' => hs (hT hs')⟩

theorem put?_keeps (h : b.put? s i = some b') (hs : s ∈ T) : b.Keeps T b' := by
  unfold Scoreboard.put? at h
  split at h
  next =>
    cases h
    refine ⟨rfl, fun t ht => ?_⟩
    have hne : s ≠ t := fun heq => ht (heq ▸ hs)
    rw [Scoreboard.get?_set, if_neg hne]
  next => cases h

theorem assigned?_keeps (h : assigned? b c = some b') (hT : ∀ s ∈ target c, s ∈ T) : b.Keeps T b' := by
  unfold assigned? at h
  split at h
  case h_1 => exact put?_keeps h (hT _ (.head _))
  case h_4 =>
    obtain ⟨y, -, h⟩ := bind_eq_some_iff.mp h
    obtain ⟨x, -, h⟩ := bind_eq_some_iff.mp h
    obtain ⟨z, -, h⟩ := bind_eq_some_iff.mp h
    exact put?_keeps h (hT _ (.head _))
  case h_6 => cases h
  all_goals
    obtain ⟨x, -, h⟩ := bind_eq_some_iff.mp h
    exact put?_keeps h (hT _ (.head _))

theorem simple_keeps (h : simple b c = some (control, b'))
    (hT : ∀ s ∈ target c, s ∈ T) : b.Keeps T b' := by
  unfold simple at h
  split at h
  case h_4 =>
    obtain ⟨b1, hb1, h⟩ := map_eq_some_iff.mp h
    cases h
    exact assigned?_keeps hb1 hT
  all_goals
    cases h
    exact ⟨rfl, fun _ _ => rfl⟩

theorem calculate_keeps (h : calculate b c = some (control, b'))
    (hT : ∀ s ∈ target c, s ∈ T) : b.Keeps T b' := by
  unfold calculate at h
  split at h
  · obtain ⟨r, -, h⟩ := bind_eq_some_iff.mp h
    split at h
    · exact simple_keeps h hT
    · cases h
      exact ⟨rfl, fun _ _ => rfl⟩
  · exact simple_keeps h hT

/-- Worlds that differ in scores of some kinds and in what is counted. -/
structure Differs (T : List Score) (w w' : World) : Prop where
  scores : w.scores.Keeps T w'.scores
  rest : { w' with scores := w.scores, entered := w.entered, commands := w.commands } = w

theorem Differs.mono (h : Differs T' w w') (hT : T' ⊆ T) : Differs T w w' := ⟨h.scores.mono hT, h.rest⟩

theorem Differs.trans {w1 w2 w3 : World} (h : Differs T w1 w2) (h' : Differs T w2 w3) : Differs T w1 w3 := by
  refine ⟨h.scores.trans h'.scores, ?_⟩
  rw [← h.rest, ← h'.rest]

end Keeps

/-- Steps are carried out to their end within a number of commands, and leave scores with a property. -/
def Completes (p : Program) (T : List Score) (ss : List Step) (b : Scoreboard) (k : Nat) (Q : Scoreboard → Prop) : Prop :=
  ∀ w : World, w.scores = b → Ends p none ss w k fun w' => Q w'.scores ∧ Differs T w w'

/-- The function of a name is carried out. -/
def Calculates (p : Program) (T : List Score) (name : String) (b : Scoreboard) (k : Nat) (Q : Scoreboard → Prop) : Prop :=
  ∀ w : World, w.scores = b → Enters p name none w k fun w' => Q w'.scores ∧ Differs T w w'

theorem carries {T : List Score} {c : Command} (h : calculate w.scores c = some (control, b')) (hT : ∀ s ∈ target c, s ∈ T)
    (line : String) : ∃ x, exec p line c w.counted = .ok ⟨x, control⟩ { w.counted with scores := b' } ∧
      Differs T w { w.counted with scores := b' } := by
  obtain ⟨x, hx⟩ := exec_calculate (w := w.counted) h
  exact ⟨x, hx, calculate_keeps h hT, rfl⟩

theorem runs_next {T : List Score} {c : Command} {name line : String} {rest : List Step}
    (h : calculate w.scores c = some (.next, b')) (hT : ∀ s ∈ target c, s ∈ T) :
    Runs p [⟨name, .command line (.ok c) :: rest, none, []⟩] [⟨name, rest, none, []⟩] w 1
      fun w' => w'.scores = b' ∧ Differs T w w' := by
  obtain ⟨x, hx, hstep⟩ := carries h hT line
  exact .next fetches_command hx ⟨rfl, hstep⟩

namespace Completes

variable {T T' : List Score} {rest : List Step} {ss : List Step} {k l : Nat}
  {Q R : Scoreboard → Prop} {c : Command} {line name : String}

theorem mono (h : Completes p T ss b k R) (hk : k ≤ l := by omega)
    (hQ : ∀ b', R b' → Q b' := by exact fun _ h => h) : Completes p T ss b l Q :=
  fun w hw name => (h w hw name).mono hk fun _ h => ⟨hQ _ h.1, h.2⟩

theorem nil (h : Q b) : Completes p T [] b 0 Q :=
  fun _ hw _ => .ended ⟨hw ▸ h, ⟨rfl, fun _ _ => rfl⟩, rfl⟩

theorem next (h : calculate b c = some (.next, b')) (hT : ∀ s ∈ target c, s ∈ T) (hrest : Completes p T rest b' k Q) :
    Completes p T (.command line (.ok c) :: rest) b (k + 1) Q := by
  rintro w rfl name
  rw [Nat.add_comm]
  exact (runs_next h hT).trans fun w1 h1 => (hrest w1 h1.1 name).mono (Nat.le_refl k) fun _ h => ⟨h.1, h1.2.trans h.2⟩

theorem invoke (h : calculate b c = some (.invoke ⟨name, none, false, []⟩, b')) (hT : target c ++ T' ⊆ T)
    (hbody : Calculates p T' name b' l R) (hrest : ∀ b1, b'.Keeps T' b1 → R b1 → Completes p T rest b1 k Q) :
    Completes p T (.command line (.ok c) :: rest) b (k + l + 1) Q := by
  rintro w rfl caller
  obtain ⟨x, hx, hstep⟩ := carries h (fun s hs => hT (mem_append_left _ hs)) line
  rw [Nat.add_assoc, Nat.add_comm]
  refine (Runs.call hx (hbody _ rfl)).trans fun w1 h1 => (hrest _ h1.2.scores h1.1 w1 rfl caller).mono (Nat.le_refl k) ?_
  exact fun _ h => ⟨h.1, (hstep.trans (h1.2.mono fun s hs => hT (mem_append_right _ hs))).trans h.2⟩

theorem call (hT : T' ⊆ T) (hbody : Calculates p T' name b l R) (hrest : ∀ b', b.Keeps T' b' → R b' → Completes p T rest b' k Q) :
    Completes p T (.command line (.ok (.function name none)) :: rest) b (k + l + 1) Q := invoke rfl hT hbody hrest

theorem jump (h : calculate b c = some (.invoke ⟨name, none, true, []⟩, b')) (hT : ∀ s ∈ target c, s ∈ T)
    (hbody : Calculates p T name b' k Q) : Completes p T (.command line (.ok c) :: rest) b (k + 1) Q := by
  rintro w rfl caller
  obtain ⟨x, hx, hstep⟩ := carries h hT line
  exact (Runs.jump hx (hbody _ rfl)).mono (Nat.le_refl _) fun _ h => ⟨h.1, hstep.trans h.2⟩

end Completes

section Calculates

variable {T : List Score} {name : String} {k : Nat} {Q : Scoreboard → Prop}

theorem Calculates.of_script {ns path : String} {s : Script} (hp : p.Has ns path s) (hplain : s.Plain)
    (h : Completes p T s.steps b k Q) : Calculates p T (inNamespace ns path) b k Q := by
  intro w hw
  have hstep : Differs T w (w.entering (inNamespace ns path)) := ⟨⟨rfl, fun _ _ => rfl⟩, rfl⟩
  exact ⟨_, hp, hplain.needsNoArguments, fun name => (h (w.entering _) hw name).mono (Nat.le_refl k) fun _ h => ⟨h.1, hstep.trans h.2⟩⟩

/-- **What a function performs, a run of it does on every world with the scores.** -/
theorem Calculates.run (h : Calculates p T name w.scores k Q) (hk : k ≤ p.maxCommands) :
    ∃ x w', runFunction p name none w = .ok x w' ∧ Q w'.scores ∧ Differs T w w' :=
  (h w rfl).run (by omega)

end Calculates

/-! ### Registers -/

namespace Scoreboard

/-- The value of a register. -/
def reg (b : Scoreboard) (r : Reg) : Option Int := b.get? r.score

/-- Puts a value in a register. -/
def put (b : Scoreboard) (r : Reg) (i : Int) : Scoreboard := b.set r.score i

/-- The objective of the registers exists. -/
def Live (b : Scoreboard) : Prop := b.has objective = true

@[simp] theorem live_put (b : Scoreboard) (r : Reg) (i : Int) : (b.put r i).Live ↔ b.Live := Iff.rfl

@[simp] theorem reg_put (b : Scoreboard) (r s : Reg) (i : Int) :
    (b.put r i).reg s = if r.name = s.name then some (wrap32 i) else b.reg s := by
  simp only [reg, put, get?_set, View.score_inj]

@[simp] theorem live_ite (q : Prop) [Decidable q] (b b' : Scoreboard) :
    (if q then b else b').Live ↔ if q then b.Live else b'.Live := by
  split <;> rfl

@[simp] theorem reg_ite (q : Prop) [Decidable q] (b b' : Scoreboard) (r : Reg) :
    (if q then b else b').reg r = if q then b.reg r else b'.reg r := apply_ite (·.reg r) q b b'

theorem Keeps.live {T : List Score} (h : b.Keeps T b') (hb : b.Live) : b'.Live := by
  unfold Live has
  rw [h.objectives]
  exact hb

theorem Keeps.reg {T : List Score} (h : b.Keeps T b') {r : Reg} (hr : r.score ∉ T) : b'.reg r = b.reg r := h.scores _ hr

theorem Live.put? (h : b.Live) (r : Reg) (i : Int) : b.put? r.score i = some (b.put r i) := if_pos h

end Scoreboard

/-- The scores after steps that all go on. -/
def calculated? (b : Scoreboard) : List Step → Option Scoreboard
  | [] => some b
  | .command _ (.ok c) :: rest =>
    match calculate b c with
    | some (.next, b') => calculated? b' rest
    | _ => none
  | _ => none

/-- The scores that steps set. -/
def targets : List Step → List Score
  | .command _ (.ok c) :: rest => target c ++ targets rest
  | _ => []

@[simp] theorem calculated?_nil : calculated? b [] = some b := rfl

section Prefix

variable {ss rest : List Step} {c : Command} {name line : String} {T : List Score} {k l : Nat} {Q R : Scoreboard → Prop}

attribute [local simp] calculated?

theorem runs_calculated (h : ∃ b', calculated? w.scores ss = some b' ∧ R b') (hT : targets ss ⊆ T) :
    Runs p [⟨name, ss ++ rest, none, []⟩] [⟨name, rest, none, []⟩] w ss.length fun w' => R w'.scores ∧ Differs T w w' := by
  obtain ⟨b', h, hR⟩ := h
  induction ss generalizing w with
  | nil =>
    cases h
    exact .refl ⟨hR, ⟨rfl, fun _ _ => rfl⟩, rfl⟩
  | cons step ss ih =>
    match step, h with
    | .command line (.ok c), h =>
      unfold calculated? at h
      split at h
      next b1 hc =>
        rw [length_cons, Nat.add_comm]
        refine (runs_next hc fun s hs => hT (mem_append_left _ hs)).trans ?_
        rintro w1 ⟨rfl, h1⟩
        exact (ih (fun s hs => hT (mem_append_right _ hs)) h).mono (Nat.le_refl _) fun _ h' => ⟨h'.1, h1.trans h'.2⟩
      next => cases h

theorem Completes.append (h : ∃ b', calculated? b ss = some b' ∧ R b') (hT : targets ss ⊆ T)
    (hrest : ∀ b', R b' → Completes p T rest b' k Q) : Completes p T (ss ++ rest) b (k + ss.length) Q := by
  rintro w rfl name
  rw [Nat.add_comm]
  exact (runs_calculated h hT).trans fun w1 h1 => (hrest _ h1.1 w1 rfl name).mono (Nat.le_refl k) fun _ h => ⟨h.1, h1.2.trans h.2⟩

/-- Steps that begin with so many that go on. -/
theorem Completes.after (n : Nat) (h : ∃ b', calculated? b (ss.take n) = some b' ∧ R b') (hT : targets (ss.take n) ⊆ T)
    (hrest : ∀ b', R b' → Completes p T (ss.drop n) b' k Q) : Completes p T ss b (k + n) Q := by
  have hall := Completes.append h hT hrest
  rw [take_append_drop] at hall
  exact hall.mono (Nat.add_le_add_left (length_take_le ..) k)

/-- Steps that all go on. -/
theorem Completes.whole (h : ∃ b', calculated? b ss = some b' ∧ Q b') (hT : targets ss ⊆ T)
    (hk : ss.length ≤ k) : Completes p T ss b k Q := by
  have hall := Completes.append (p := p) h hT fun _ => .nil
  rw [append_nil] at hall
  exact hall.mono

section Given

variable {q : Bool}

/-- A call under a condition. -/
theorem Completes.given_call (T' : List Score) (R : Scoreboard → Prop) (hm : met? b clauses = some q) (hT : T' ⊆ T) (hyes : q = true → Calculates p T' name b l R) (hno : q = false → R b)
    (hrest : ∀ b', b.Keeps T' b' → R b' → Completes p T rest b' k Q) :
    Completes p T (.command line (.ok (.execute clauses (.function name none))) :: rest) b (k + l + 1) Q := by
  cases q with
  | true => exact .invoke (by rw [calculate, hm]; rfl) hT (hyes rfl) hrest
  | false =>
    refine .mono (.next ?_ (forall_mem_nil _) (hrest b ⟨rfl, fun _ _ => rfl⟩ (hno rfl)))
    rw [calculate, hm]
    rfl

/-- A jump under a condition. -/
theorem Completes.given_jump (hm : met? b clauses = some q) (hyes : q = true → Calculates p T name b k Q) (hno : q = false → Completes p T rest b k Q) :
    Completes p T (.command line (.ok (.execute clauses (.retRun (.function name none)))) :: rest) b (k + 1) Q := by
  cases q with
  | true => exact .jump (by rw [calculate, hm]; rfl) (forall_mem_nil _) (hyes rfl)
  | false => exact .next (by rw [calculate, hm]; rfl) (forall_mem_nil _) (hno rfl)

end Given

/-! ### Evaluation

Reads are of registers that are set, so each command only has a value to give. -/

@[simp] theorem calculated?_assigned (h : (assigned? b c).isSome = true) :
    calculated? b (.command line (.ok c) :: rest) = calculated? ((assigned? b c).getD b) rest := by
  obtain ⟨b', hb'⟩ := isSome_iff_exists.mp h
  have hc : calculate b c = (assigned? b c).map (.next, ·) := by
    cases c <;> first | rfl | cases hb'
  rw [calculated?, hc, hb']
  rfl

@[simp] theorem calculated?_given (hm : (met? b clauses).isSome = true) (h : (assigned? b c).isSome = true) :
    calculated? b (.command line (.ok (.execute clauses c)) :: rest) =
      calculated? (if (met? b clauses).getD false then (assigned? b c).getD b else b) rest := by
  obtain ⟨q, hq⟩ := isSome_iff_exists.mp hm
  obtain ⟨b', hb'⟩ := isSome_iff_exists.mp h
  have hc : simple b c = (assigned? b c).map (.next, ·) := by
    cases c <;> first | rfl | cases hb'
  rw [calculated?, calculate, hq, bind_some, hc, hb']
  cases q <;> rfl

section Rules

variable {r s : Reg} {op : ScoreOp}

@[simp] theorem holds?_within (range : Range) : holds? b (.within r.score range) = (b.reg r).map range.contains := rfl

@[simp] theorem holds?_compare (op : Comparison) : holds? b (.compare r.score op s.score) =
    (b.reg r).bind fun x => (b.reg s).bind (Comparison.holds? op x) := rfl

variable (hb : b.Live)

include hb

@[simp] theorem assigned?_set (i : Int) : assigned? b (.setScore r.score i) = some (b.put r i) := hb.put? r i

@[simp] theorem assigned?_add (n : Int) : assigned? b (.addScore r.score n) = (b.reg r).map fun x => b.put r (x + n) := by
  simp only [assigned?, hb.put?, map_eq_bind]
  rfl

@[simp] theorem assigned?_assign : assigned? b (.operate r.score .assign s.score) = (b.reg s).map (b.put r) := by
  simp only [assigned?, funext (hb.put? r), map_eq_bind]
  rfl

@[simp] theorem assigned?_operate (hop : op ≠ .assign) : assigned? b (.operate r.score op s.score) = (b.reg s).bind fun y =>
    (b.reg r).bind fun x => (ScoreOp.outcome? op x y).map (b.put r) := by
  rw [assigned?.eq_4 _ _ _ _ hop]
  simp only [funext (hb.put? r), map_eq_bind]
  rfl

@[simp] theorem assigned?_test : assigned? b (.check (storeIn r :: clauses)) =
    (met? b clauses).map fun q => b.put r (if q = true then 1 else 0) := by
  simp only [storeIn, assigned?, hb.put?, map_eq_bind]
  rfl

end Rules

end Prefix

end ScoreWasm.Machine

namespace ScoreWasm.Emit.Script

open Machine

attribute [simp] steps_append steps_join_cons

@[simp] theorem steps_join_nil : (Script.join []).steps = [] := rfl

@[simp] theorem steps_command (c : Command) : (Script.command c).steps = [.command c.render (.ok c)] := rfl

@[simp] theorem steps_operate (r : Reg) (op : ScoreOp) (s : Reg) :
    (operate r op s).steps = (Script.command (.operate r.score op s.score)).steps := rfl

@[simp] theorem steps_given (clauses : List Clause) (c : Command) :
    (given clauses (.command c)).steps = (Script.command (.execute clauses c)).steps := rfl

end ScoreWasm.Emit.Script

namespace ScoreWasm.Emit

open Word

theorem add_eq (r : Reg) {n : Int} (h : wrap32 n = n ∧ n ≠ 0 ∧ n ≠ minInt) : add r n = .command (.addScore r.score n) := by
  rw [add]
  simp [h.1, h.2.1, h.2.2]

theorem copy_eq {r s : Reg} (h : r ≠ s) : copy r s = operate r .assign s := by
  rw [copy, if_neg (by simpa using h)]

end ScoreWasm.Emit
