import ScoreWasm.Proofs.Pack.MemoryRefinement

/-!
# Runs of a compiled module

However long a run is and however it came about, its functions never stand on more than six frames, and at most
the rest of one run is put off.
-/

namespace ScoreWasm.Pack

open Std Wasm Emit Machine Library

variable {m : Module} {o : Options} {pk : Pack} {p : Program}

variable {registry : Host.Registry} {name : String} {f : Frame}

/-- Where a compiled module lives, and whether its runs are put off. -/
def home (pk : Pack) : Home := ⟨pk.ns, pk.options.budget.isSome⟩

theorem home_eq (hc : compile m o registry = .ok pk) : pk.home = ⟨o.ns, o.budget.isSome⟩ := by
  obtain ⟨d, u, hosts, words, rfl, rfl, -⟩ := compile_eq_ok hc
  rfl

theorem layered_of_compile (hc : compile m o .builtin = .ok pk)
    (hp : p.functions = pk.program.functions) : p.Layered pk.home := by
  intro name f hf
  rw [hp] at hf
  rw [home_eq hc]
  obtain ⟨path, hname, hfit, -⟩ := compiled_layered hc hf
  exact ⟨path, hname, hfit⟩

/-- With a budget, the reset drops what was put off. -/
theorem awaitsReset_reset (hc : compile m o registry = .ok pk) (hb : pk.home.timed = true) :
    ∃ g, pk.program.functions[inNamespace pk.ns "rt/reset"]? = some g ∧ AwaitsReset pk.home g.steps := by
  obtain ⟨tables, hlibrary⟩ := has_library hc
  obtain ⟨d, u, hosts, words, rfl, rfl, -⟩ := compile_eq_ok hc
  obtain ⟨b, hb⟩ := Option.isSome_iff_exists.mp hb
  have hreset := hlibrary _ (mem_routines (.inl (reset_mem_control _ _)))
  refine ⟨_, hreset, ?_⟩
  change d.options.budget = some b at hb
  rw [hb]
  exact .setting rfl (.setting rfl (.setting rfl (.setting rfl (.setting rfl (.drop _ _)))))

theorem enter_eq_ok {w w' : World} (h : enter p name none [] w = .ok f w') :
    ∃ g, p.functions[name]? = some g ∧ f.steps = g.steps := by
  cases hg : p.functions[name]? with
  | none =>
    rw [enter, hg] at h
    cases h
  | some g =>
    refine ⟨g, rfl, ?_⟩
    rw [enter, hg] at h
    dsimp only at h
    split at h <;> cases h
    rfl

/-- The functions that start something begin with a reset. -/
theorem awaitsReset_enter (hc : compile m o .builtin = .ok pk) (hp : p.functions = pk.program.functions)
    (hname : name ∈ pk.load ∨ ∃ e ∈ pk.exports, e.function = name) {w w' : World}
    (he : enter p name none [] w = .ok f w') : AwaitsReset pk.home f.steps := by
  obtain ⟨g, hg, hsteps⟩ := enter_eq_ok he
  rw [hp] at hg
  obtain ⟨path, hpath, -, hawaits⟩ := compiled_layered hc hg
  rw [hsteps, home_eq hc]
  apply hawaits
  obtain ⟨d, u, hosts, words, rfl, rfl, -, -, -, -, -, -, -, -, hexports, -⟩ := compile_eq_ok hc
  obtain hload | ⟨e, hmem, rfl⟩ := hname
  · rw [List.mem_singleton.mp hload, inNamespace_inj] at hpath
    rw [← hpath]
    rfl
  · obtain ⟨q, hq⟩ := exportEntries_functions hexports e hmem
    rw [hq, inNamespace_inj] at hpath
    simp [← hpath, starts, Text.startsWith, List.isPrefixOf]

/-- **The command stack holds six frames at most.** -/
theorem command_stack_le_six (hc : compile m o .builtin = .ok pk) (hp : p.functions = pk.program.functions) {name : String}
    {w w' : World} {f : Frame} (hb : Begins p w name) (he : enter p name none [] w = .ok f w') :
    runFunction p name none w = (steps p p.maxCommands.toNat ⟨[f], some 0, w'⟩).result p name ∧
      ∀ n c, steps p n ⟨[f], some 0, w'⟩ = .next c → c.frames.length ≤ 6 := by
  have hlayered := layered_of_compile hc hp
  obtain ⟨hw, ⟨path, -, hf⟩, -⟩ := (keeps_enter hlayered name (by simp) (by simp)).ok (hb.sound hlayered) he
  refine ⟨?_, fun n c hn => ?_⟩
  · rw [runFunction, bind_ok he]
    exact loop_eq p name _ ⟨[f], some 0, w'⟩
  · have hframes := (reaches_layered hlayered closed_pending ⟨hw, layered_singleton hf⟩ ⟨n, hn⟩).2
    simpa using hframes.length_le (Nat.zero_le 6)

/-- Two pages of memory can be loaded, so the function that prepares them can be entered. -/
theorem enter_init_twoPages : ∃ pk p f w, compile twoPages .default .builtin = .ok pk ∧ p.functions = pk.program.functions ∧
    enter p (inNamespace pk.ns "init") none [] .fresh = .ok f w := by
  obtain ⟨pk, hc, hstart, hmemory⟩ := compile_twoPages .builtin
  obtain ⟨k, hk⟩ := reload_keepsMemory hc hstart (by rw [hmemory]; rintro _ ⟨⟩; decide)
  let p : Program := { pk.program with maxCommands := k }
  obtain ⟨w, -, hload, -⟩ := hk p rfl rfl (Int.le_refl _)
  have hone : pk.load = [inNamespace pk.ns "init"] := by
    obtain ⟨d, u, hosts, words, rfl, -⟩ := compile_eq_ok hc
    rfl
  cases he : enter p (inNamespace pk.ns "init") none [] .fresh with
  | ok f w' => exact ⟨pk, p, f, w', hc, rfl, he⟩
  | error e w' =>
    have hrun : runFunction p (inNamespace pk.ns "init") none .fresh = .error e w' := bind_error he
    have hdiscard : (discard (runFunction p (inNamespace pk.ns "init") none) : Run Unit) .fresh = .error e w' := by
      show EStateM.map _ _ _ = _
      rw [EStateM.map, hrun]
    have hall : reload p .fresh = .error e w' := by
      rw [reload, show p.load = [.str (inNamespace pk.ns "init")] from congrArg (List.map Json.str) hone]
      exact bind_error hdiscard
    rw [hall] at hload
    cases hload

theorem command_stack_le_six_twoPages : ∃ pk p f w, compile twoPages .default .builtin = .ok pk ∧
    p.functions = pk.program.functions ∧ Begins p .fresh (inNamespace pk.ns "init") ∧
    enter p (inNamespace pk.ns "init") none [] .fresh = .ok f w ∧ ∀ n c, steps p n ⟨[f], some 0, w⟩ = .next c → c.frames.length ≤ 6 := by
  obtain ⟨pk, p, f, w, hc, hp, he⟩ := enter_init_twoPages
  have hb : Begins p .fresh (inNamespace pk.ns "init") := .between (.start rfl rfl) _
  exact ⟨pk, p, f, w, hc, hp, hb, he, (command_stack_le_six hc hp hb he).2⟩

/-- At most one entry is on the agenda, and it resumes a run. -/
def AtMostOne (pk : Pack) (agenda : List Scheduled) : Prop :=
  agenda = [] ∨ ∃ t, agenda = [⟨t, inNamespace pk.ns "rt/resume"⟩]

theorem atMostOne_of_sound {w : World} (h : Sound pk.home (Pending pk.home) w) : pk.AtMostOne w.scheduled := by
  obtain ⟨-, h | ⟨-, e, he, hname, -⟩⟩ := h
  · exact .inl h
  · refine .inr ⟨e.time, he.trans ?_⟩
    change e.name = inNamespace pk.ns "rt/resume" at hname
    rw [← hname]

/-- **At most one run is ever put off.**  This holds between runs and at every command of a run.  A run that starts
something first drops what was put off; once the agenda is empty, it stays so until the run itself is put off. -/
theorem at_most_one_pending (hc : compile m o .builtin = .ok pk)
    (hp : p.functions = pk.program.functions) : (∀ w, Reached p w → pk.AtMostOne w.scheduled) ∧
    ∀ w name f w', Begins p w name → enter p name none [] w = .ok f w' →
      ∀ n c, steps p n ⟨[f], some 0, w'⟩ = .next c → pk.AtMostOne c.world.scheduled ∧
        (name ∈ pk.load ∨ (∃ e ∈ pk.exports, e.function = name) → Phase pk.home w.scheduled c) ∧
        (c.world.scheduled = [] → ∀ j d, steps p j c = .next d → Cleared pk.home d) := by
  have hlayered := layered_of_compile hc hp
  refine ⟨fun w hw => atMostOne_of_sound (hw.sound hlayered), fun w name f w' hb he n c hn => ?_⟩
  obtain ⟨hw, ⟨path, -, hf⟩, -⟩ := (keeps_enter hlayered name (by simp) (by simp)).ok (hb.sound hlayered) he
  have hsame : w'.scheduled = w.scheduled :=
    ((keeps_enter (S := fun l _ => l = w.scheduled) hlayered name (by simp) (by simp)).ok ⟨(hb.sound hlayered).1, rfl⟩ he).1.2
  have hsound := reaches_layered hlayered closed_pending ⟨hw, layered_singleton hf⟩ ⟨n, hn⟩
  refine ⟨atMostOne_of_sound hsound.1, fun hname => ?_, fun hempty j d hd => ?_⟩
  · have hreset := @awaitsReset_reset m o pk .builtin hc
    rw [← hp] at hreset
    refine Reaches.keeps hlayered (step_phase hlayered hreset) hw (layered_singleton hf) (.inl ⟨?_, hsame⟩) ⟨n, hn⟩
    simpa [upcoming] using awaitsReset_enter hc hp hname he
  · exact Reaches.keeps hlayered (step_cleared hlayered) hsound.1 hsound.2 (.inl hempty) ⟨j, hd⟩

theorem at_most_one_pending_twoPages : ∃ pk p f w, compile twoPages .default .builtin = .ok pk ∧
    p.functions = pk.program.functions ∧ enter p (inNamespace pk.ns "init") none [] .fresh = .ok f w ∧
    pk.AtMostOne (leaves (reload p) .fresh).scheduled ∧
    ∀ n c, steps p n ⟨[f], some 0, w⟩ = .next c → pk.AtMostOne c.world.scheduled ∧ Phase pk.home [] c ∧
      (c.world.scheduled = [] → ∀ j d, steps p j c = .next d → Cleared pk.home d) := by
  obtain ⟨pk, p, f, w, hc, hp, he⟩ := enter_init_twoPages
  obtain ⟨hworld, hrun⟩ := at_most_one_pending hc hp
  have hstart : Reached p .fresh := .start rfl rfl
  have hload : inNamespace pk.ns "init" ∈ pk.load := by
    obtain ⟨d, u, hosts, words, rfl, -⟩ := compile_eq_ok hc
    exact List.mem_singleton_self _
  refine ⟨pk, p, f, w, hc, hp, he, hworld _ hstart.reload, fun n c hn => ?_⟩
  obtain ⟨hone, hphase, hcleared⟩ := hrun _ _ f w (.between hstart _) he n c hn
  exact ⟨hone, hphase (.inl hload), hcleared⟩

end ScoreWasm.Pack
