import ScoreWasm.Machine.Call
import ScoreWasm.Proofs.Machine.Layers

/-!
# The agenda

At most the rest of one run is ever put off (`Reached.sound`, `Begins.sound`).  A run that begins with a reset
first drops what was put off; after that the agenda is empty until the run itself is put off, which ends it
(`step_phase`, `step_cleared`).
-/

namespace ScoreWasm.Machine

open Std.Do Emit Text Word

set_option mvcgen.warning false

variable {H : Home} {S : List Scheduled → Int → Prop} {p : Program}

/-- At most the rest of one run is put off, and it is due in the next tick at the latest. -/
def Pending (H : Home) (l : List Scheduled) (t : Int) : Prop :=
  l = [] ∨ H.timed = true ∧ ∃ e, l = [e] ∧ e.name = H.resume ∧ e.time ≤ t + 1

theorem closed_pending (h : H.timed = true) : Closed H (Pending H) := by
  rintro l t (rfl | ⟨-, e, rfl, he, -⟩)
  · exact ⟨.inl rfl, .inr ⟨h, _, rfl, rfl, le_refl _⟩⟩
  · simp [he, Pending, h]

/-! ### Whole calls -/

@[spec] theorem keeps_runNamed (hp : p.Layered H) (hS : H.timed = true → Closed H S) (name : Json) :
    Keeps H S (runNamed p name none) fun _ => True := by
  mvcgen [runNamed, functionNamed]

@[spec] theorem keeps_runAll (hp : p.Layered H) (hS : H.timed = true → Closed H S) :
    ∀ names : List Json, Keeps H S (runAll p names) fun _ => True
  | [] => by mvcgen [runAll, List.forM]
  | name :: rest => by
    have hrest := keeps_runAll hp hS rest
    show Keeps H S (do discard (runNamed p name none); runAll p rest) _
    mvcgen [discard_eq_map, hrest]
    grind

theorem keeps_tick (hp : p.Layered H) : Keeps H (Pending H) (tick p) fun _ => True := by
  mvcgen [tick] <;> grind [Sound, Pending, closed_pending]

@[spec] theorem keeps_writeArguments : ∀ (i : Nat) (args : List (String × Argument)),
    Keeps H S (writeArguments i args) fun _ => True
  | _, [] => by mvcgen [writeArguments]
  | i, (type, arg) :: rest => by
    have hrest := keeps_writeArguments (i + 1) rest
    mvcgen [writeArguments, hrest] <;> grind

@[spec] theorem keeps_part (name : String) (j : Json) : Keeps H S (part name j) fun _ => True := by
  cases j <;> mvcgen [part]

@[spec] theorem keeps_exportInfo (name : String) : Keeps H S (exportInfo p name) fun _ => True := by
  mvcgen [exportInfo]
  grind

@[spec] theorem keeps_typeNames (j : Json) : Keeps H S (typeNames j) fun _ => True := by
  cases j <;> mvcgen [typeNames]

@[spec] theorem keeps_outputSize (key : String) : Keeps H S (outputSize p key) fun _ => True := by
  mvcgen [outputSize, outputData]

@[spec] theorem keeps_outputFrom (key : String) (n : Nat) : Keeps H S (outputFrom p key n) fun _ => True := by
  mvcgen [outputFrom, outputData]

@[spec] theorem keeps_outputValues : ∀ ds : List Datum, Keeps H S (ds.mapM outputValue) fun _ => True
  | [] => by mvcgen [List.mapM_nil]
  | d :: rest => by
    have hrest := keeps_outputValues rest
    rw [List.mapM_cons]
    mvcgen [outputValue, treeOf, hrest]

@[spec] theorem keeps_codePoints : ∀ ds : List Datum, Keeps H S (codePoints ds) fun _ => True
  | [] => by mvcgen [codePoints]
  | .int c :: rest | .float x :: rest => by
    have hrest := keeps_codePoints rest
    mvcgen [codePoints, hrest]
  | .str s :: rest | .ref a :: rest => by mvcgen [codePoints]

@[spec] theorem keeps_readResults : ∀ (i : Nat) (types : List String), Keeps H S (readResults i types) fun _ => True
  | _, [] => by mvcgen [readResults]
  | i, t :: rest => by
    have hrest := keeps_readResults (i + 1) rest
    mvcgen [readResults, readResult, hrest]

theorem keeps_finish (hp : p.Layered H) (name : String) (limit : Int) : ∀ fuel ticks : Nat,
    Keeps H (Pending H) (finish p name limit fuel ticks) fun _ => True
  | 0, ticks => by mvcgen [finish]
  | fuel + 1, ticks => by
    have htick := keeps_tick hp
    have hrest := keeps_finish hp name limit fuel
    mvcgen [finish, htick, hrest]
    grind

theorem keeps_call (hp : p.Layered H) (name : String) (args : List Argument) (limit : Int) :
    Keeps H (Pending H) (call p name args limit) fun _ => True := by
  have hfinish := keeps_finish hp name limit
  mvcgen [call, trapKinds, discard_eq_map, hfinish] <;> grind [closed_pending]

/-! ### What can happen to a world -/

/-- The world as a computation leaves it, whether it ends or stops. -/
def leaves {α : Type} (x : Run α) (w : World) : World :=
  match x w with
  | .ok _ w' => w'
  | .error _ w' => w'

theorem Keeps.leaves {α : Type} {x : Run α} {Q : α → Prop} {w : World} (h : Keeps H S x Q)
    (hw : Sound H S w) : Sound H S (leaves x w) := by
  unfold Machine.leaves
  split
  · exact (h.ok hw ‹_›).1
  · exact h.error hw ‹_›

/-- The worlds that come out of a world without data by reloads, runs of functions, calls and ticks in any order,
whether they end or stop. -/
inductive Reached (p : Program) : World → Prop
  | start {w : World} (hheap : w.heap = .empty) (hagenda : w.scheduled = []) : Reached p w
  | reload {w : World} (h : Reached p w) : Reached p (leaves (reload p) w)
  | arguments {w : World} (h : Reached p w) (args : List (String × Argument)) : Reached p (leaves (writeArguments 0 args) w)
  | run {w : World} (h : Reached p w) (name : String) : Reached p (leaves (runFunction p name none) w)
  | call {w : World} (h : Reached p w) (name : String) (args : List Argument) (limit : Int) :
    Reached p (leaves (call p name args limit) w)
  | tick {w : World} (h : Reached p w) : Reached p (leaves (tick p) w)

/-- A function begins to run on its own: at any time between two ticks, as a function of every tick, or
because it is due. -/
inductive Begins (p : Program) : World → String → Prop
  | between {w : World} (h : Reached p w) (name : String) : Begins p w name
  | every {w : World} {name : String} (h : Reached p w) (hname : .str name ∈ p.tick) :
    Begins p { w with time := w.time + 1 } name
  | due {w w' : World} {e : Scheduled} (h : Reached p w) (ht : runAll p p.tick { w with time := w.time + 1 } = .ok () w')
    (he : e ∈ w'.scheduled) (hdue : e.time ≤ w'.time) :
    Begins p { w' with scheduled := w'.scheduled.filter (fun s => w'.time < s.time) } e.name

/-- **At most one run is put off.** -/
theorem Reached.sound (hp : p.Layered H) {w : World} (h : Reached p w) : Sound H (Pending H) w := by
  have hS : H.timed = true → Closed H (Pending H) := closed_pending
  induction h with
  | start hheap hagenda =>
    refine ⟨?_, .inl hagenda⟩
    rw [hheap]
    intro a es hes
    simp [Heap.empty, Heap.get?] at hes
  | reload _ ih => exact (keeps_runAll hp hS _).leaves ih
  | arguments _ args ih => exact (keeps_writeArguments 0 args).leaves ih
  | run _ name ih => exact (keeps_runFunction hp hS name).leaves ih
  | call _ name args limit ih => exact (keeps_call hp name args limit).leaves ih
  | tick _ ih => exact (keeps_tick hp).leaves ih

theorem Begins.sound (hp : p.Layered H) {w : World} {name : String} (h : Begins p w name) : Sound H (Pending H) w := by
  have hlater : ∀ {w : World}, Reached p w → Sound H (Pending H) { w with time := w.time + 1 } := by
    intro w h
    have := h.sound hp
    grind [Sound, Pending]
  cases h with
  | between h name => exact h.sound hp
  | every h _ => exact hlater h
  | due h ht he hdue =>
    have := ((keeps_runAll hp closed_pending _).ok (hlater h) ht).1
    grind [Sound, Pending]

/-! ### Runs that begin with a reset -/

/-- Sets a score or adds an objective. -/
def isSetting : Command → Bool
  | .setScore _ _ => true
  | .addObjective _ => true
  | _ => false

/-- The steps that set scores until they drop what was put off. -/
inductive AwaitsReset (H : Home) : List Step → Prop
  | setting {line : String} {c : Command} {rest : List Step} (hc : isSetting c = true) (h : AwaitsReset H rest) :
    AwaitsReset H (.command line (.ok c) :: rest)
  | reset (line : String) (rest : List Step) :
    AwaitsReset H (.command line (.ok (.function (inNamespace H.ns "rt/reset") none)) :: rest)
  | drop (line : String) (rest : List Step) : AwaitsReset H (.command line (.ok (.unschedule H.resume)) :: rest)

theorem AwaitsReset.append {l : List Step} (h : AwaitsReset H l) (rest : List Step) : AwaitsReset H (l ++ rest) := by
  induction h with
  | setting hc _ ih => exact ih.setting hc
  | reset line l => exact .reset line _
  | drop line l => exact .drop line _

/-- Nothing is put off, or the run itself is, and nothing is left of it. -/
def Cleared (H : Home) (c : Config) : Prop :=
  c.world.scheduled = [] ∨ upcoming c.frames = [] ∧ c.world.scheduled = [⟨c.world.time + 1, H.resume⟩]

/-- Where a run that begins with a reset stands: the reset is to come and the agenda is as it was, or it has been
cleared. -/
def Phase (H : Home) (before : List Scheduled) (c : Config) : Prop :=
  AwaitsReset H (upcoming c.frames) ∧ c.world.scheduled = before ∨ Cleared H c

variable {line : String} {f : Frame} {below : List Frame} {value : Option Int}

theorem keeps_carryOut_setting {d : Command} (hd : isSetting d = true) :
    Keeps H S (carryOut p line (.ok d) f below value) fun r => r.1 = f :: below := by
  cases d <;> simp only [isSetting, Bool.false_eq_true] at hd <;>
    mvcgen [carryOut, readable, exec, execWithin, Outcome.of, follow]
  grind

theorem keeps_carryOut_reset (hp : p.Layered H) {g : Function}
    (hg : p.functions[inNamespace H.ns "rt/reset"]? = some g) :
    Keeps H S (carryOut p line (.ok (.function (inNamespace H.ns "rt/reset") none)) f below value) fun r =>
      upcoming r.1 = g.steps ++ upcoming (f :: below) := by
  have henter := fun l => @keeps_enter H S p hp (inNamespace H.ns "rt/reset") none l
  mvcgen [carryOut, readable, exec, execWithin, invocation, follow, henter] <;> grind [upcoming]

theorem carryOut_drop : ⦃fun w => ⌜Sound H (Pending H) w⌝⦄ carryOut p line (.ok (.unschedule H.resume)) f below value
    ⦃post⟨fun _ w => ⌜w.scheduled = []⌝, fun _ _ => ⌜True⌝⟩⦄ := by
  mvcgen [carryOut, readable, exec, execWithin, Outcome.of, follow]
  grind [Sound, Pending]

theorem follow_deferred {D : List Scheduled → Int → Prop} (hs : ∀ s ∈ f.stores, s.Suited) (control : Control) :
    ⦃fun w => ⌜control = .next ∧ Sound H S w ∨ (∃ v, control = .ret v) ∧ Sound H D w⌝⦄ follow p f below value control
    ⦃post⟨fun r w => ⌜Sound H S w ∨ r.1 = below ∧ Sound H D w⌝, fun _ _ => ⌜True⌝⟩⦄ := by
  cases control with
  | next =>
    mvcgen [follow]
    grind
  | ret v =>
    have hstores := keeps_applyStores (H := H) (S := D) p.strict v hs
    mvcgen [follow, hstores] <;> grind
  | invoke call =>
    rintro w (⟨h, -⟩ | ⟨⟨v, h⟩, -⟩) <;> cases h

/-- With an empty agenda a command leaves it empty, or it puts off the run, of which nothing is left. -/
theorem carryOut_cleared (hp : p.Layered H) {frames : List Frame} {c : Except CommandFault Command} {l : Nat}
    (hf : Fetched H frames c f below l) : ⦃fun w => ⌜Sound H (fun l _ => l = []) w⌝⦄ carryOut p line c f below value
    ⦃post⟨fun r w => ⌜w.scheduled = [] ∨ upcoming r.1 = [] ∧ w.scheduled = [⟨w.time + 1, H.resume⟩]⌝,
      fun _ _ => ⌜True⌝⟩⦄ := by
  have hstores := hf.frame.stores
  have hfollow := fun control hc => @keeps_follow H (fun l _ => l = []) p f below frames c hp l hf value control hc
  cases c with
  | error e => mvcgen [carryOut, readable]
  | ok d =>
    have hkeeps : d.Fits H (if f.steps = [] then l else min l 5) false ∨ d = .unschedule H.resume →
        Keeps H (fun l _ => l = []) (exec p line d) fun out =>
          out.control.Fits H (if f.steps = [] then l else min l 5) false := by
      rintro (hd | rfl)
      · exact keeps_execWithin p line d bodyLimit hd
      · have hdrop := keeps_exec_unschedule (H := H) (S := fun l _ => l = []) p line (by simp)
        mvcgen [hdrop]
        grind [Control.Fits]
    obtain hd | ⟨-, rfl | ⟨hl, r, rfl⟩⟩ := hf.command d rfl
    · have hexec := hkeeps (.inl hd)
      mvcgen [carryOut, readable, hexec, hfollow] <;> grind [Sound]
    · have hexec := hkeeps (.inr rfl)
      mvcgen [carryOut, readable, hexec, hfollow] <;> grind [Sound]
    · have hexec := exec_schedule (H := H) (S := fun l _ => l = [])
        (D := fun l t => l = [⟨t + 1, H.resume⟩]) p line r (by simp)
      have hdeferred := @follow_deferred H (fun l _ => l = []) p f below value (fun l t => l = [⟨t + 1, H.resume⟩]) hstores
      have hbelow := hf.layered.upcoming_eq_nil (by grind)
      mvcgen [carryOut, readable, hexec, hdeferred]
      grind [Sound]

theorem step_cleared (hp : p.Layered H) {c c' : Config} (hw : Sound H (Pending H) c.world)
    (hf : Layered H 0 c.frames) (hc : Cleared H c) (h : step p c = .next c') : Cleared H c' := by
  obtain ⟨line, d, f, below, w, hfetch, hcarry⟩ := step_eq_next h
  obtain ⟨⟨hheap, hsame⟩, hd⟩ :=
    (keeps_fetch (S := fun l _ => l = c.world.scheduled) p.strict hf).ok ⟨hw.1, rfl⟩ hfetch
  obtain ⟨l, hd⟩ := hd line d f below rfl
  obtain hempty | ⟨hover, -⟩ := hc
  · exact of_triple (carryOut_cleared hp hd) ⟨hheap, hsame.trans hempty⟩ hcarry
  · obtain ⟨s, hnext, -⟩ := hd.next
    rw [hnext] at hover
    cases hover

theorem step_phase (hp : p.Layered H)
    (hreset : H.timed = true → ∃ g, p.functions[inNamespace H.ns "rt/reset"]? = some g ∧ AwaitsReset H g.steps)
    {before : List Scheduled} {c c' : Config} (hw : Sound H (Pending H) c.world) (hf : Layered H 0 c.frames)
    (hc : Phase H before c) (h : step p c = .next c') : Phase H before c' := by
  obtain ⟨hawaits, hbefore⟩ | hcleared := hc
  · by_cases htimed : H.timed = true
    · obtain ⟨g, hg, hsteps⟩ := hreset htimed
      obtain ⟨line, d, f, below, w, hfetch, hcarry⟩ := step_eq_next h
      obtain ⟨hw', hd⟩ := (keeps_fetch p.strict hf).ok hw hfetch
      have hw0 : Sound H (fun l _ => l = before) w := ((keeps_fetch p.strict hf).ok ⟨hw.1, hbefore⟩ hfetch).1
      obtain ⟨l, hd⟩ := hd line d f below rfl
      obtain ⟨s, hnext, hs⟩ := hd.next
      rw [hnext] at hawaits
      cases hawaits with
      | setting hsetting hrest =>
        cases hs _ _ rfl
        obtain ⟨hc', heq⟩ := (keeps_carryOut_setting hsetting).ok hw0 hcarry
        exact .inl ⟨show AwaitsReset H (upcoming (c'.frames, c'.value).1) from heq ▸ hrest, hc'.2⟩
      | reset =>
        cases hs _ _ rfl
        obtain ⟨hc', heq⟩ := (keeps_carryOut_reset hp hg).ok hw0 hcarry
        exact .inl ⟨heq ▸ hsteps.append _, hc'.2⟩
      | drop =>
        cases hs _ _ rfl
        exact .inr (.inl (of_triple carryOut_drop hw' hcarry))
    · exact .inr (step_cleared hp hw hf (.inl (by grind [Sound, Pending])) h)
  · exact .inr (step_cleared hp hw hf hcleared h)

/-- What steps keep in layers and with at most one run put off. -/
theorem Reaches.keeps (hp : p.Layered H) {I : Config → Prop}
    (hstep : ∀ {c c'}, Sound H (Pending H) c.world → Layered H 0 c.frames → I c → step p c = .next c' → I c')
    {c c' : Config} (hw : Sound H (Pending H) c.world) (hf : Layered H 0 c.frames) (hc : I c) (h : Reaches p c c') :
    I c' :=
  (h.invariant (I := fun d => Sound H (Pending H) d.world ∧ Layered H 0 d.frames ∧ I d) (fun ⟨hw, hf, hc⟩ hs =>
      have ⟨hw', hf'⟩ := step_layered hp closed_pending hw hf hs
      ⟨hw', hf', hstep hw hf hc hs⟩)
    ⟨hw, hf, hc⟩).2.2

end ScoreWasm.Machine
