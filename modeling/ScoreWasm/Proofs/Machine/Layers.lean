import ScoreWasm.Proofs.Machine.Keeping

/-!
# Frames in layers

Frames stand on frames of higher levels, and there are six levels, so a run of functions that fit their
levels never has more than six frames (`Layered.length_le`, `reaches_layered`).
-/

namespace ScoreWasm

open Emit Text

/-- A command that puts off the rest of a run, or drops a rest that was put off. -/
def Command.Timed (H : Home) (n : Nat) (c : Command) : Prop :=
  c = .unschedule H.resume ∨ 5 ≤ n ∧ ∃ r, c = .execute [isNegative r] (.retRun (.schedule H.resume 1 "replace"))

/-- The text may stand for the macro variable. -/
def Home.Fills (H : Home) (k text : String) : Prop :=
  (k = "k" → H.Names text) ∧ (k ∈ numberKeys → ∃ i : Int, text = toString i)

/-- The lines a template may become. -/
def Segment.Become (H : Home) : List Segment → String → Prop
  | [], line => line = ""
  | .text t :: rest, line => ∃ r, Segment.Become H rest r ∧ line = t ++ r
  | .hole k :: rest, line => ∃ t r, H.Fills k t ∧ Segment.Become H rest r ∧ line = t ++ r

theorem Nbt.mem_of_named? {α : Type} {k : String} {v : α} {es : List (String × α)}
    (h : Nbt.named? k es = some v) : (k, v) ∈ es := by
  fun_induction Nbt.named? k es <;> grind

namespace Machine

open Std.Do

set_option mvcgen.warning false

/-- The step may stand at level `n`. -/
def Step.Fits (H : Home) (n : Nat) : Step → Prop
  | .command _ c => ∀ d, c = .ok d → d.Fits H n false ∨ H.timed = true ∧ d.Timed H n
  | .template segments => ∀ line, Segment.Become H segments line → ∀ d, parseCommand line = .ok d → d.Fits H n false

/-- What is left of a function of a level: only its last step may go beyond level five. -/
def Fit (H : Home) (n : Nat) : List Step → Prop
  | [] => True
  | s :: rest => s.Fits H (if rest = [] then n else min n 5) ∧ Fit H n rest

/-- The frame may stand at level `n`. -/
structure Frame.Fits (H : Home) (n : Nat) (f : Frame) : Prop where
  steps : Fit H n f.steps
  args : ∀ v, f.args ≠ some (.value v)
  stores : ∀ s ∈ f.stores, s.Suited

/-- Frames of increasing levels above a given one.  Nothing is left of what is below a frame of level five. -/
def Layered (H : Home) : Nat → List Frame → Prop
  | _, [] => True
  | n, f :: below => ∃ l, n < l ∧ l ≤ 6 ∧ f.Fits H l ∧ (n = 5 → f.steps = []) ∧ Layered H l below

/-- The functions of a program fit their levels. -/
def Program.Layered (p : Program) (H : Home) : Prop :=
  ∀ name f, p.functions[name]? = some f → ∃ path, name = inNamespace H.ns path ∧ Fit H (level path) f.steps

/-- The steps still to run. -/
def upcoming (frames : List Frame) : List Step := frames.flatMap Frame.steps

variable {H : Home} {S D : List Scheduled → Int → Prop} {p : Program} {f : Frame}
  {below frames : List Frame} {c : Except CommandFault Command}

theorem Layered.length_le : ∀ {frames : List Frame} {n : Nat}, n ≤ 6 → Layered H n frames → frames.length + n ≤ 6
  | [], n, hn, _ => by simpa using hn
  | f :: below, n, _, ⟨l, hl, hl6, _, _, hb⟩ => by
    have := hb.length_le hl6
    simp only [List.length_cons]
    omega

theorem Layered.mono {m n : Nat} (hmn : m ≤ n) (h : Layered H n frames) : Layered H m frames := by
  cases frames with
  | nil => trivial
  | cons f below =>
    obtain ⟨l, hl, hl6, hf, hs, hb⟩ := h
    exact ⟨l, by omega, hl6, hf, fun hm => hs (by omega), hb⟩

theorem Layered.upcoming_eq_nil {n : Nat} (hn : 5 ≤ n) (h : Layered H n frames) : upcoming frames = [] := by
  match frames, h with
  | [], _ => rfl
  | [f], ⟨_, _, _, _, hs, _⟩ => simp [upcoming, hs (by omega)]
  | f :: g :: below, ⟨_, _, _, _, _, _, _, _, _⟩ => omega

/-! ### Fetching a command -/

theorem keeps_settle (b : Bool) : ∀ {frames : List Frame}, Layered H 0 frames →
    Keeps H S (settle b frames) fun r => Layered H 0 r ∧ upcoming r = upcoming frames
  | [], _ => by mvcgen [settle]
  | f :: below, h => by
    have ⟨l, hl, hl6, hf, hs, hb⟩ := h
    have hrest := keeps_settle b (hb.mono (Nat.zero_le l))
    have hstores := hf.stores
    cases hsteps : f.steps <;> simp only [settle, hsteps, upcoming, List.flatMap_cons, List.nil_append]
    · mvcgen [hrest]
      all_goals grind [upcoming]
    · mvcgen
      simp_all

@[spec] theorem keeps_argumentNow (name key : String) {args : Entries} (h : ∀ v, args = .value v → v = .obj []) :
    Keeps H S (argumentNow name key args) fun v => H.Fills key (holeText v) := by
  cases args with
  | value v =>
    rw [h v rfl]
    mvcgen [argumentNow, namedArgument, Nbt.named?]
  | stored a =>
    mvcgen [argumentNow, treeOf]
    rename_i w hw es hes d hd t ht
    have hsuits := hw.1 a _ hes _ (Nbt.mem_of_named? hd)
    refine ⟨hw, fun hk => ?_, fun hk => ?_⟩
    · obtain ⟨s, rfl, hs⟩ := hsuits.1 hk
      cases ht
      exact hs
    · obtain ⟨i, rfl⟩ := hsuits.2 hk
      cases ht
      exact ⟨i, rfl⟩

theorem keeps_fillTemplate (name : String) {args : Entries} (h : ∀ v, args = .value v → v = .obj []) :
    ∀ (segments : List Segment) (acc : String), Keeps H S (fillTemplate name args segments acc)
      fun line => ∃ r, Segment.Become H segments r ∧ line = acc ++ r
  | [], acc => by
    mvcgen [fillTemplate]
    simp_all [Segment.Become]
  | .text t :: rest, acc => by
    have hrest := keeps_fillTemplate name h rest (acc ++ t)
    mvcgen [fillTemplate, hrest]
    all_goals grind [Segment.Become, String.append_assoc]
  | .hole k :: rest, acc => by
    have hrest := keeps_fillTemplate name h rest
    mvcgen [fillTemplate, hrest]
    all_goals grind [Segment.Become, String.append_assoc]

/-- What was fetched of frames: a command of a frame of a level, and what is left. -/
structure Fetched (H : Home) (frames : List Frame) (c : Except CommandFault Command) (f : Frame)
    (below : List Frame) (l : Nat) : Prop where
  pos : 0 < l
  le : l ≤ 6
  frame : f.Fits H l
  layered : Layered H l below
  command : ∀ d, c = .ok d → d.Fits H (if f.steps = [] then l else min l 5) false ∨
    H.timed = true ∧ d.Timed H (if f.steps = [] then l else min l 5)
  next : ∃ s, upcoming frames = s :: upcoming (f :: below) ∧ ∀ line d, s = .command line d → c = d

theorem Layered.fetched (h : Layered H 0 (f :: below)) (hu : upcoming (f :: below) = upcoming frames) {s : Step}
    {rest : List Step} (hs : f.steps = s :: rest)
    (hc : ∀ n, s.Fits H n → ∀ d, c = .ok d → d.Fits H n false ∨ H.timed = true ∧ d.Timed H n)
    (hnext : ∀ line d, s = .command line d → c = d) : ∃ l, Fetched H frames c { f with steps := rest } below l := by
  obtain ⟨l, hpos, hle, hf, -, hb⟩ := h
  have hsteps := hf.steps
  rw [hs] at hsteps
  refine ⟨l, hpos, hle, ⟨hsteps.2, hf.args, hf.stores⟩, hb, hc _ hsteps.1, s, ?_, hnext⟩
  rw [← hu]
  simp [upcoming, hs]

theorem keeps_fetch (b : Bool) (h : Layered H 0 frames) : Keeps H S (fetch b frames) fun r =>
    ∀ line c f below, r = some (line, c, f, below) → ∃ l, Fetched H frames c f below l := by
  have hs := keeps_settle (S := S) b h
  have hargs : ∀ {f : Frame} {below : List Frame}, Layered H 0 (f :: below) → ∀ v,
      f.args.getD (.value (.obj [])) = .value v → v = .obj [] := by
    rintro f below ⟨l, -, -, hf, -⟩ v hv
    have := hf.args
    cases hf : f.args <;> grind
  unfold fetch
  mvcgen [hs, keeps_fillTemplate]
  · simp_all
  · simp_all
  · rename_i _ _ _ f below _ s rest hrest _ line c rfl w hw _
    refine ⟨hw.1, fun line' c' f' below' heq => ?_⟩
    cases heq
    exact hw.2.1.fetched hw.2.2 hrest (fun n hn => by subst_vars; exact hn) (by grind)
  · rename_i hw
    exact hargs hw.2.1
  · rename_i hw
    exact hw.1
  · rename_i _ _ _ f below _ s rest hrest _ segments rfl w hw line w' hw' _
    refine ⟨hw'.1, fun line' c' f' below' heq => ?_⟩
    cases heq
    obtain ⟨r, hr, hline⟩ := hw'.2
    refine hw.2.1.fetched hw.2.2 hrest (fun n hn d hd => .inl ?_) (by grind)
    subst_vars
    exact hn _ (by simpa using hr) d hd

/-! ### Carrying a command out -/

theorem keeps_exec_unschedule (p : Program) (line : String)
    (hclear : ∀ l t, S l t → S (l.filter (·.name != H.resume)) t) :
    Keeps H S (exec p line (.unschedule H.resume)) fun out => out.control = .next := by
  mvcgen [exec, execWithin, Outcome.of]
  grind [Sound]

/-- A run that is to be put off ends, and any other one goes on. -/
theorem exec_schedule (p : Program) (line : String) (r : Reg)
    (hdefer : ∀ l t, S l t → D (l.filter (·.name != H.resume) ++ [⟨t + 1, H.resume⟩]) t) :
    ⦃fun w => ⌜Sound H S w⌝⦄ exec p line (.execute [isNegative r] (.retRun (.schedule H.resume 1 "replace")))
    ⦃post⟨fun out w => ⌜out.control = .next ∧ Sound H S w ∨ (∃ v, out.control = .ret v) ∧ Sound H D w⌝,
      fun _ w => ⌜Sound H S w⌝⟩⦄ := by
  mvcgen [exec, execWithin, evalClauses, isNegative, atMost, applyStores, List.forM,
    List.reverse_nil, Outcome.of] <;> grind [Sound]

theorem keeps_enter (hp : p.Layered H) (name : String) {args : Option Entries} {stores : List Store}
    (ha : ∀ v, args ≠ some (.value v)) (hs : ∀ s ∈ stores, s.Suited) : Keeps H S (enter p name args stores) fun f =>
      (∃ path, name = inNamespace H.ns path ∧ f.Fits H (level path)) ∧
        ∀ g, p.functions[name]? = some g → f.steps = g.steps := by
  mvcgen [enter]
  rename_i f hf _ _ w hw _
  obtain ⟨path, hname, hfit⟩ := hp name f hf
  exact ⟨hw, ⟨path, hname, hfit, ha, hs⟩, fun g hg => by rw [hf] at hg; cases hg; rfl⟩

theorem keeps_follow (hp : p.Layered H) {l : Nat} (hf : Fetched H frames c f below l) (value : Option Int)
    {control : Control} (hc : control.Fits H (if f.steps = [] then l else min l 5) false) :
    Keeps H S (follow p f below value control) fun r => Layered H 0 r.1 := by
  have hle := hf.le
  have hstores := hf.frame.stores
  cases control with
  | next =>
    mvcgen [follow]
    exact ⟨‹_›, l, hf.pos, hle, hf.frame, by simp, hf.layered⟩
  | ret v =>
    mvcgen [follow]
    exact ⟨‹_›, hf.layered.mono (Nat.zero_le l)⟩
  | invoke call =>
    obtain ⟨hlevel, hargs, hcall⟩ := hc
    by_cases ht : call.tail = true <;> simp only [follow, ht, if_true, Bool.false_eq_true, if_false]
    · have henter := keeps_enter (S := S) hp call.name hargs hstores
      mvcgen [henter]
      rename_i w hw
      obtain ⟨hw, ⟨path, hname, hfits⟩, -⟩ := hw
      have := hlevel path hname
      exact ⟨hw, level path, level_pos path, by grind, hfits, by simp, hf.layered.mono (by grind)⟩
    · have henter := keeps_enter (S := S) hp call.name hargs hcall
      mvcgen [henter]
      rename_i w hw
      obtain ⟨hw, ⟨path, hname, hfits⟩, -⟩ := hw
      have := hlevel path hname
      exact ⟨hw, level path, level_pos path, by grind, hfits, by simp, l, by grind, hle, hf.frame, by grind, hf.layered⟩

/-- A property of the agenda that is kept when a run is put off and when one is dropped. -/
def Closed (H : Home) (S : List Scheduled → Int → Prop) : Prop :=
  ∀ l t, S l t → S (l.filter (·.name != H.resume)) t ∧ S (l.filter (·.name != H.resume) ++ [⟨t + 1, H.resume⟩]) t

theorem keeps_exec (hS : H.timed = true → Closed H S) (line : String) {n : Nat} {d : Command}
    (hd : d.Fits H n false ∨ H.timed = true ∧ d.Timed H n) :
    Keeps H S (exec p line d) fun out => out.control.Fits H n false := by
  obtain hd | ⟨ht, rfl | ⟨-, r, rfl⟩⟩ := hd
  · exact keeps_execWithin p line d bodyLimit hd
  · have hclear := keeps_exec_unschedule p line fun l t h => (hS ht l t h).1
    mvcgen [hclear]
    grind [Control.Fits]
  · have hdefer := exec_schedule p line r fun l t h => (hS ht l t h).2
    mvcgen [hdefer]
    grind [Control.Fits]

theorem keeps_carryOut (hp : p.Layered H) (hS : H.timed = true → Closed H S) (line : String)
    (value : Option Int) (hf : ∃ l, Fetched H frames c f below l) :
    Keeps H S (carryOut p line c f below value) fun r => Layered H 0 r.1 := by
  obtain ⟨l, hf⟩ := hf
  have hfollow := @keeps_follow H S p f below frames c hp l hf value
  cases c with
  | error e => mvcgen [carryOut, readable]
  | ok d =>
    have hexec := keeps_exec (p := p) hS line (hf.command d rfl)
    mvcgen [carryOut, readable, hexec, hfollow] <;> grind

/-! ### Runs -/

theorem step_eq_next {c c' : Config} (h : step p c = .next c') : ∃ line d f below w,
    fetch p.strict c.frames c.world = .ok (some (line, d, f, below)) w ∧
      carryOut p line d f below c.value w = .ok (c'.frames, c'.value) c'.world := by
  unfold step at h
  split at h
  · cases h
  · cases h
  · rename_i line d f below w hfetch
    split at h
    · cases h
    · rename_i hcarry
      cases h
      exact ⟨line, d, f, below, w, hfetch, hcarry⟩

theorem step_layered (hp : p.Layered H) (hS : H.timed = true → Closed H S) {c c' : Config} (hw : Sound H S c.world)
    (hf : Layered H 0 c.frames) (h : step p c = .next c') : Sound H S c'.world ∧ Layered H 0 c'.frames := by
  obtain ⟨line, d, f, below, w, hfetch, hcarry⟩ := step_eq_next h
  obtain ⟨hw, hd⟩ := (keeps_fetch p.strict hf).ok hw hfetch
  exact (keeps_carryOut hp hS line c.value (hd line d f below rfl)).ok hw hcarry

/-- What every step keeps holds of all that is reached. -/
theorem Reaches.invariant {I : Config → Prop} (hstep : ∀ {c c'}, I c → step p c = .next c' → I c')
    {c c' : Config} (hc : I c) (h : Reaches p c c') : I c' := by
  obtain ⟨n, h⟩ := h
  induction n generalizing c with
  | zero =>
    cases h
    exact hc
  | succ n ih =>
    cases hs : step p c with
    | next d =>
      rw [steps_succ_next hs] at h
      exact ih (hstep hc hs) h
    | done v w | stopped f w => simp [steps, hs] at h

/-- **Frames stay in layers, and the world stays sound.** -/
theorem reaches_layered (hp : p.Layered H) (hS : H.timed = true → Closed H S) {c c' : Config}
    (hc : Sound H S c.world ∧ Layered H 0 c.frames) (h : Reaches p c c') : Sound H S c'.world ∧ Layered H 0 c'.frames :=
  h.invariant (fun hd hs => step_layered hp hS hd.1 hd.2 hs) hc

theorem keeps_loop (hp : p.Layered H) (hS : H.timed = true → Closed H S) (top : String) :
    ∀ (fuel : Nat) {frames : List Frame} (value : Option Int), Layered H 0 frames →
    Keeps H S (loop p top fuel frames value) fun _ => True
  | 0, frames, value, h => by
    have hfetch := keeps_fetch (S := S) p.strict h
    mvcgen [loop, hfetch] <;> grind
  | fuel + 1, frames, value, h => by
    have hfetch := keeps_fetch (S := S) p.strict h
    have hcarry := fun line c f below => @keeps_carryOut H S p f below frames c hp hS line
    have hloop := fun r => @keeps_loop hp hS top fuel r
    rw [loop_succ]
    mvcgen [hfetch, hcarry, hloop] <;> grind

theorem layered_singleton {path : String} (h : f.Fits H (level path)) : Layered H 0 [f] := by
  refine ⟨level path, level_pos path, ?_, h, by simp, trivial⟩
  by_cases hi : path = "init"
  · subst hi
    decide
  · exact (level_le_five hi).trans (by decide)

@[spec] theorem keeps_runFunction (hp : p.Layered H) (hS : H.timed = true → Closed H S)
    (name : String) : Keeps H S (runFunction p name none) fun _ => True := by
  have henter := fun f => @keeps_enter H S p hp name none f
  have hloop := fun r => @keeps_loop H S p hp hS name p.maxCommands.toNat r
  mvcgen [runFunction, henter, hloop]
  all_goals grind [layered_singleton]

end Machine

end ScoreWasm
